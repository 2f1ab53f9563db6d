import StockFeed.GridStride
import StockFeed.NeighbourReduction

/-!
# What the reduction kernels compute

Each thread collects the terms of its residue class, so the cells of `cache`
hold a partition of the whole sum.  The tree should then add up all cells, but
its step reads `cache[cacheIndex+1]` where the halving needs
`cache[cacheIndex+i]`: a phase is one of neighbour additions, and the cells
right of the middle are never read.

The main result says for which inputs every order of the threads nevertheless
leads to the whole sum.
-/

namespace StockFeed

open NeighbourReduction StridePartition

section Cells

variable {K : Type} [Zero K]

/-- The terms are there, at every index of the array. -/
def TermsAt (arrayLength : ℕ) (term : Int32 → Checked K) (f : ℕ → K) : Prop :=
  ∀ k < arrayLength, term (Int32.ofNat k) = .ok (f k)

theorem termsAt_readSigned
    {input : List K} (hint : input.length < 2 ^ 31) :
    TermsAt input.length (readSigned input) fun k => input.getD k 0 :=
  readSigned_term hint

theorem termsAt_product
    [Mul K] {input1 input2 : List K} (hlength : input1.length = input2.length)
    (hint : input1.length < 2 ^ 31) :
    TermsAt (List.zipWith (· * ·) input1 input2).length
      (fun tid => do
        let x ← readSigned input1 tid
        let y ← readSigned input2 tid
        return x * y)
      fun k => (List.zipWith (· * ·) input1 input2).getD k 0 :=
  product_term hlength hint

/-! ## The shared cells -/

/-- The cells of an array, as the tree sees them. -/
def cellsOf (cache : List K) : ℕ → K :=
  fun k => cache.getD k 0

theorem cellsOf_set
    {cache : List K} {t : ℕ} (ht : t < cache.length) (value : K) :
    cellsOf (cache.set t value) = Function.update (cellsOf cache) t value := by
  funext k
  unfold cellsOf
  by_cases heq : k = t
  · subst heq
    rw [Function.update_self, List.getD_eq_getElem?_getD,
      List.getElem?_set_self ht]
    rfl
  · rw [Function.update_of_ne heq, List.getD_eq_getElem?_getD,
      List.getElem?_set_ne (Ne.symm heq), List.getD_eq_getElem?_getD]

variable [Add K]

theorem addNeighbour_eq
    {i : ℕ} {cache : List K} (hi : i < cache.length) (t : ℕ) :
    ∃ next, addNeighbour i cache t = .ok next ∧
      next.length = cache.length ∧
      cellsOf next =
        if t < i then absorb (cellsOf cache) t else cellsOf cache := by
  by_cases ht : t < i
  · have hhere : t < cache.length := ht.trans hi
    have hnext : t + 1 < cache.length := by omega
    refine ⟨cache.set t (cache[t] + cache[t + 1]), ?_, List.length_set, ?_⟩
    · rw [addNeighbour, if_pos ht, readAt_of_lt hhere, readAt_of_lt hnext]
      exact writeAt_of_lt hhere _
    · rw [if_pos ht, cellsOf_set hhere, absorb]
      unfold cellsOf
      rw [List.getD_eq_getElem _ _ hhere, List.getD_eq_getElem _ _ hnext]
  · refine ⟨cache, ?_, rfl, ?_⟩
    · rw [addNeighbour, if_neg ht]
      rfl
    · rw [if_neg ht]

theorem foldlM_addNeighbour
    {i : ℕ} {cache : List K} (hi : i < cache.length) (order : List ℕ) :
    ∃ next, order.foldlM (addNeighbour i) cache = .ok next ∧
      next.length = cache.length ∧
      cellsOf next = phase (cellsOf cache) (order.filter (· < i)) := by
  induction order generalizing cache with
  | nil => exact ⟨cache, rfl, rfl, rfl⟩
  | cons t rest ih =>
      obtain ⟨middle, hstep, hlength, hcells⟩ := addNeighbour_eq hi t
      obtain ⟨next, hrest, hlength', hcells'⟩ :=
        ih (hlength.symm ▸ hi : i < middle.length)
      refine ⟨next, ?_, hlength'.trans hlength, ?_⟩
      · rw [List.foldlM_cons, hstep]
        exact hrest
      · rw [hcells', hcells]
        by_cases ht : t < i
        · rw [if_pos ht, List.filter_cons_of_pos (by simpa using ht),
            phase_cons]
        · rw [if_neg ht, List.filter_cons_of_neg (by simpa using ht)]

/-! ## The loop over i -/

/-- The order of the active threads in each phase of the tree. -/
def Schedule.active {blockDim : ℕ} (schedule : Schedule blockDim) (n : ℕ) :
    List ℕ :=
  (schedule.order n).filter (· < n)

theorem Schedule.lt_of_mem_active
    {blockDim n t : ℕ} {schedule : Schedule blockDim}
    (ht : t ∈ schedule.active n) : t < n := by
  simpa using (List.mem_filter.mp ht).2

theorem treeLoop_spec
    {blockDim : ℕ} (schedule : Schedule blockDim) {m fuel : ℕ}
    (hfuel : m ≤ fuel) {cache : List K} (hlength : 2 ^ m ≤ cache.length) :
    ∃ reduced, whileLoop (fun s => s.1 ≠ 0)
        (fun s => do
          let cache ← (schedule.order s.1).foldlM (addNeighbour s.1) s.2
          return (s.1 / 2, cache))
        fuel (2 ^ m / 2, cache) = .ok (0, reduced) ∧
      reduced.length = cache.length ∧
      cellsOf reduced = tree schedule.active m (cellsOf cache) := by
  induction m generalizing fuel cache with
  | zero =>
      refine ⟨cache, ?_, rfl, rfl⟩
      exact whileLoop_of_not_guard rfl _ _
  | succ m ih =>
      obtain ⟨rest, rfl⟩ := Nat.exists_eq_add_of_lt hfuel
      have hhalf : 2 ^ (m + 1) / 2 = 2 ^ m := by
        rw [pow_succ]
        omega
      have hpos : 0 < 2 ^ m := Nat.two_pow_pos m
      have hactive : 2 ^ m < cache.length := by
        rw [pow_succ] at hlength
        omega
      obtain ⟨next, hphase, hnext, hcells⟩ :=
        foldlM_addNeighbour hactive (schedule.order (2 ^ m))
      obtain ⟨reduced, hloop, hreduced, htree⟩ :=
        ih (Nat.le_add_right m rest) (hnext.symm ▸ hactive.le)
      refine ⟨reduced, ?_, hreduced.trans hnext, ?_⟩
      · rw [hhalf, whileLoop_of_guard (t := (2 ^ m / 2, next))]
        · exact hloop
        · simp
        · rw [hphase]
          rfl
      · rw [htree, hcells]
        rfl

/-! ## Schedules and orders -/

theorem Schedule.active_perm
    {blockDim n : ℕ} (schedule : Schedule blockDim) (hn : n ≤ blockDim) :
    (schedule.active n).Perm (List.range n) := by
  have hfilter : (List.range blockDim).filter (· < n) = List.range n := by
    obtain ⟨rest, rfl⟩ := Nat.exists_eq_add_of_le hn
    rw [List.range_add, List.filter_append, List.filter_eq_self.mpr,
      List.filter_eq_nil_iff.mpr, List.append_nil]
    · simp
    · simp
  rw [← hfilter]
  exact (schedule.perm n).filter _

/-- Every choice of orders for the active threads is one of a schedule. -/
def Schedule.ofOrders (blockDim : ℕ) (order : ℕ → List ℕ)
    (hperm : ∀ n, (order n).Perm (List.range n)) : Schedule blockDim where
  order n :=
    if n ≤ blockDim then order n ++ List.range' n (blockDim - n)
    else List.range blockDim
  perm n := by
    split_ifs with hn
    · have happend := List.range'_append_1 (s := 0) (m := n) (n := blockDim - n)
      rw [Nat.zero_add, Nat.add_sub_cancel' hn] at happend
      rw [List.range_eq_range', ← happend, ← List.range_eq_range']
      exact (hperm n).append_right _
    · exact List.Perm.refl _

theorem Schedule.active_ofOrders
    {blockDim n : ℕ} (hn : n ≤ blockDim) {order : ℕ → List ℕ}
    (hperm : ∀ n, (order n).Perm (List.range n)) :
    (Schedule.ofOrders blockDim order hperm).active n = order n := by
  rw [Schedule.active, Schedule.ofOrders]
  simp only [if_pos hn]
  rw [List.filter_append, List.filter_eq_self.mpr, List.filter_eq_nil_iff.mpr,
    List.append_nil]
  · intro t ht
    rw [List.mem_range'_1] at ht
    simpa using ht.1
  · intro t ht
    rw [(hperm n).mem_iff, List.mem_range] at ht
    simpa using ht

/-! ## One block -/

/-- What thread `t` collects, adding from left to right. -/
def threadTotal (arrayLength blockDim : ℕ) (f : ℕ → K) (t : ℕ) : K :=
  (positions arrayLength blockDim t).foldl (fun temp k => temp + f k) 0

/-- `cache` before the first phase of the tree. -/
def filledCells (arrayLength m : ℕ) (f : ℕ → K) (shared : SharedMemory K) :
    ℕ → K :=
  fun t => if t < 2 ^ m then threadTotal arrayLength (2 ^ m) f t
    else cellsOf shared.cells t

theorem reduceBlock_eq
    {arrayLength m : ℕ} (hblock : 2 ^ m ≤ threadsPerBlock)
    (hint : arrayLength + threadsPerBlock < 2 ^ 31)
    {term : Int32 → Checked K} {f : ℕ → K} (hterm : TermsAt arrayLength term f)
    (schedule : Schedule (2 ^ m)) (shared : SharedMemory K) :
    reduceBlock arrayLength 1 (2 ^ m) 0 term schedule shared =
      .ok (tree schedule.active m (filledCells arrayLength m f shared) 0) := by
  have hshared := shared.length_cells
  have hmem : ∀ t, t ∈ schedule.order (2 ^ m) ↔ t < 2 ^ m := by
    intro t
    rw [(schedule.perm (2 ^ m)).mem_iff, List.mem_range]
  have hvalue : ∀ t ∈ schedule.order (2 ^ m),
      strideSum arrayLength (Int32.ofNat (2 ^ m * 1)) term
        (Int32.ofNat (t + 0 * 2 ^ m)) =
      .ok (threadTotal arrayLength (2 ^ m) f t) := by
    intro t ht
    rw [mul_one, Nat.zero_mul, Nat.add_zero]
    exact strideSum_eq_foldl (Nat.two_pow_pos m) (by omega) hterm
      ((hmem t).mp ht)
  have hlt : ∀ t ∈ schedule.order (2 ^ m), t < shared.cells.length := by
    intro t ht
    rw [hmem] at ht
    omega
  obtain ⟨filled, hfill, hlength, hcells⟩ := foldlM_writeAt hvalue hlt
  obtain ⟨reduced, hloop, hreduced, htree⟩ := treeLoop_spec schedule
    (Nat.lt_two_pow_self (n := m)).le
    (by omega : 2 ^ m ≤ filled.length)
  have hpos : 0 < reduced.length := by
    have htwo := Nat.two_pow_pos m
    omega
  have hfilled : cellsOf filled = filledCells arrayLength m f shared := by
    funext t
    rw [cellsOf, List.getD_eq_getElem?_getD, hcells t, filledCells]
    by_cases ht : t < 2 ^ m
    · rw [if_pos ht, if_pos ((hmem t).mpr ht)]
      rfl
    · rw [if_neg ht, if_neg (mt (hmem t).mp ht), cellsOf,
        List.getD_eq_getElem?_getD]
  have hread : readAt reduced 0 = .ok (cellsOf reduced 0) := by
    rw [readAt_of_lt hpos, cellsOf, List.getD_eq_getElem _ _ hpos]
  rw [reduceBlock, fillCache, hfill, ← hfilled, ← htree]
  change (reduceCache schedule filled >>= _) = _
  rw [reduceCache, hloop]
  exact hread

theorem reduceGrid_one_eq
    {arrayLength blockDim : ℕ} {term : Int32 → Checked K}
    {launch : Launch K blockDim} {value : K}
    (hblock : reduceBlock arrayLength 1 blockDim 0 term (launch.schedule 0)
      (launch.shared 0) = .ok value) (junk : K) :
    reduceGrid arrayLength 1 blockDim term launch [junk] = .ok [value] := by
  rw [reduceGrid, List.range_one, List.foldlM_cons, hblock]
  rfl

end Cells

/-! ## The whole sum -/

section Reduction

variable {K : Type} [Field K]

/-- What thread `t` of `blockDim` threads collects. -/
def threadSum (blockDim : ℕ) (terms : List K) (t : ℕ) : K :=
  ∑ k ∈ (Finset.range terms.length).filter (· % blockDim = t), terms.getD k 0

/-- With at most two threads nothing is lost.  With `2 ^ m` threads, `m ≥ 2`,
threads `2` to `2 ^ m / 2` must have collected zero, and the part of thread `1`,
which is counted `m` times, must make up for the threads which are not read. -/
def ReducesWhole (m : ℕ) (terms : List K) : Prop :=
  m ≤ 1 ∨
    (∀ t, 2 ≤ t → t ≤ 2 ^ m / 2 → threadSum (2 ^ m) terms t = 0) ∧
      ((m : K) - 1) * threadSum (2 ^ m) terms 1 =
        ∑ t ∈ Finset.Ico (2 ^ m / 2 + 1) (2 ^ m), threadSum (2 ^ m) terms t

theorem filledCells_eq_threadSum
    {m t : ℕ} (ht : t < 2 ^ m) (terms : List K) (shared : SharedMemory K) :
    filledCells terms.length m (fun k => terms.getD k 0) shared t =
      threadSum (2 ^ m) terms t := by
  have hpos := Nat.two_pow_pos m
  have hvisited : (Finset.range terms.length).filter (· % 2 ^ m = t) =
      (positions terms.length (2 ^ m) t).toFinset := by
    ext k
    rw [Finset.mem_filter, Finset.mem_range, List.mem_toFinset,
      mem_positions hpos, Nat.mod_eq_of_lt ht]
    constructor
    · rintro ⟨hk, hmod⟩
      exact ⟨hk, hmod ▸ Nat.mod_le k _, hmod⟩
    · rintro ⟨hk, _, hmod⟩
      exact ⟨hk, hmod⟩
  rw [filledCells, if_pos ht, threadSum, hvisited,
    List.sum_toFinset _ (nodup_positions hpos t), List.sum_eq_foldl,
    List.foldl_map]
  rfl

theorem sum_threadSum {blockDim : ℕ} (hpos : 0 < blockDim) (terms : List K) :
    ∑ t ∈ Finset.range blockDim, threadSum blockDim terms t = terms.sum := by
  rw [← sum_getD]
  apply Finset.sum_fiberwise_of_maps_to
  intro k _
  exact Finset.mem_range.mpr (Nat.mod_lt k hpos)

theorem sum_threadSum_of_cleared
    {m : ℕ} (hm : 2 ≤ m) {terms : List K}
    (hclear : ∀ t, 2 ≤ t → t ≤ 2 ^ m / 2 → threadSum (2 ^ m) terms t = 0) :
    terms.sum = threadSum (2 ^ m) terms 0 + threadSum (2 ^ m) terms 1 +
      ∑ t ∈ Finset.Ico (2 ^ m / 2 + 1) (2 ^ m), threadSum (2 ^ m) terms t := by
  have hfour : 2 ^ 2 ≤ 2 ^ m := Nat.pow_le_pow_right (by omega) hm
  have hmiddle : ∑ t ∈ Finset.Ico 2 (2 ^ m / 2 + 1),
      threadSum (2 ^ m) terms t = 0 := by
    apply Finset.sum_eq_zero
    intro t ht
    rw [Finset.mem_Ico] at ht
    exact hclear t ht.1 (by omega)
  rw [← sum_threadSum (Nat.two_pow_pos m), Finset.range_eq_Ico,
    ← Finset.sum_Ico_consecutive _ (Nat.zero_le 2) (by omega : 2 ≤ 2 ^ m),
    ← Finset.sum_Ico_consecutive _ (by omega : 2 ≤ 2 ^ m / 2 + 1)
      (by omega : 2 ^ m / 2 + 1 ≤ 2 ^ m), hmiddle, zero_add]
  simp [Finset.sum_range_succ]

theorem forall_schedule_tree_iff
    (m : ℕ) (cells : ℕ → K) (total : K) :
    (∀ schedule : Schedule (2 ^ m), tree schedule.active m cells 0 = total) ↔
      ∀ order : ℕ → List ℕ, (∀ n, (order n).Perm (List.range n)) →
        tree order m cells 0 = total := by
  have hle : ∀ j < m, 2 ^ j ≤ 2 ^ m := fun j hj =>
    Nat.pow_le_pow_right (by omega) hj.le
  constructor
  · intro hschedule order hperm
    rw [← hschedule (Schedule.ofOrders _ order hperm)]
    apply congrFun
    apply tree_congr
    intro j hj
    rw [Schedule.active_ofOrders (hle j hj) hperm]
  · intro horders schedule
    rw [← horders (fun n =>
      if n ≤ 2 ^ m then schedule.active n else List.range n)]
    · apply congrFun
      apply tree_congr
      intro j hj
      rw [if_pos (hle j hj)]
    · intro n
      split_ifs with hn
      · exact schedule.active_perm hn
      · exact List.Perm.refl _

variable [CharZero K]

theorem forall_schedule_tree_eq_sum_iff
    (m : ℕ) (terms : List K) (shared : SharedMemory K) :
    (∀ schedule : Schedule (2 ^ m), tree schedule.active m
        (filledCells terms.length m (fun k => terms.getD k 0) shared) 0 =
          terms.sum) ↔
      ReducesWhole m terms := by
  have hcells := fun t (ht : t < 2 ^ m) =>
    filledCells_eq_threadSum ht terms shared
  have hzero := hcells 0 (Nat.two_pow_pos m)
  have hwhole := sum_threadSum (Nat.two_pow_pos m) terms
  rw [forall_schedule_tree_iff, tree_eq_for_all_orders_iff, hzero]
  rcases Nat.lt_or_ge m 2 with hsmall | hlarge
  · refine iff_of_true ⟨?_, ?_⟩ (Or.inl (by omega))
    · have hhalf : 2 ^ m / 2 ≤ 1 := by
        interval_cases m <;> norm_num
      intro k hk hkn
      omega
    · interval_cases m
      · rw [← hwhole]
        simp
      · rw [← hwhole, hcells 1 (by norm_num)]
        norm_num [Finset.sum_range_succ]
  · have hfour : 2 ^ 2 ≤ 2 ^ m := Nat.pow_le_pow_right (by omega) hlarge
    have hclear : Cleared (2 ^ m / 2)
          (filledCells terms.length m (fun k => terms.getD k 0) shared) ↔
        ∀ t, 2 ≤ t → t ≤ 2 ^ m / 2 → threadSum (2 ^ m) terms t = 0 := by
      unfold Cleared
      refine forall_congr' fun t => forall_congr' fun _ => ?_
      refine forall_congr' fun ht => ?_
      rw [hcells t (by omega)]
    rw [hclear, hcells 1 (by omega), ReducesWhole,
      or_iff_right (by omega : ¬ m ≤ 1)]
    refine and_congr_right fun hcleared => ?_
    rw [sum_threadSum_of_cleared hlarge hcleared]
    constructor
    · intro htotal
      linear_combination -htotal
    · intro hmakeUp
      linear_combination -hmakeUp

theorem reduceGrid_reduces_iff
    {m : ℕ} (hblock : 2 ^ m ≤ threadsPerBlock) {terms : List K}
    (hint : terms.length + threadsPerBlock < 2 ^ 31)
    {term : Int32 → Checked K}
    (hterm : TermsAt terms.length term fun k => terms.getD k 0) :
    (∀ (launch : Launch K (2 ^ m)) (junk : K),
        reduceGrid terms.length 1 (2 ^ m) term launch [junk] =
          .ok [terms.sum]) ↔
      ReducesWhole m terms := by
  have hrun := fun (launch : Launch K (2 ^ m)) (junk : K) =>
    reduceGrid_one_eq (reduceBlock_eq hblock hint hterm (launch.schedule 0)
      (launch.shared 0)) junk
  let shared : SharedMemory K := ⟨List.replicate threadsPerBlock 0, by simp⟩
  constructor
  · intro hreduces
    apply (forall_schedule_tree_eq_sum_iff m terms shared).mp
    intro schedule
    have hlaunch := hreduces ⟨fun _ => schedule, fun _ => shared⟩ 0
    rw [hrun] at hlaunch
    simpa using hlaunch
  · intro hwhole launch junk
    rw [hrun, (forall_schedule_tree_eq_sum_iff m terms _).mpr hwhole]

/-- One block of `2 ^ m` threads computes the dot product, the sum of squares
and the sum in every thread order exactly for the inputs `ReducesWhole` lists. -/
theorem kernels_reduce_whole_iff
    (cfg : DeviceConfig) {m : ℕ} (hblock : 2 ^ m ≤ threadsPerBlock)
    {input1 input2 : List K} (hlength1 : input1.length = cfg.priceListSize)
    (hlength2 : input2.length = cfg.priceListSize) :
    ((∀ (launch : Launch K (2 ^ m)) (junk : K),
          dot cfg.priceListSize 1 (2 ^ m) launch input1 input2 [junk] =
            .ok [(List.zipWith (· * ·) input1 input2).sum]) ↔
        ReducesWhole m (List.zipWith (· * ·) input1 input2)) ∧
      ((∀ (launch : Launch K (2 ^ m)) (junk : K),
          sumSquare cfg.priceListSize 1 (2 ^ m) launch input1 [junk] =
            .ok [(input1.map fun x => x * x).sum]) ↔
        ReducesWhole m (input1.map fun x => x * x)) ∧
      ((∀ (launch : Launch K (2 ^ m)) (junk : K),
          sum cfg.priceListSize 1 (2 ^ m) launch input1 [junk] =
            .ok [input1.sum]) ↔
        ReducesWhole m input1) := by
  have hfits := cfg.arrayLength_lt
  have hproduct : (List.zipWith (· * ·) input1 input2).length =
      cfg.priceListSize := by
    rw [List.length_zipWith, hlength1, hlength2, min_self]
  have hsquare : (List.zipWith (· * ·) input1 input1).length =
      cfg.priceListSize := by
    rw [List.length_zipWith, hlength1, min_self]
  refine ⟨?_, ?_, ?_⟩
  · have hgrid := reduceGrid_reduces_iff hblock (hproduct.symm ▸ hfits)
      (termsAt_product (hlength1.trans hlength2.symm) (by omega))
    rw [hproduct] at hgrid
    exact hgrid
  · have hgrid := reduceGrid_reduces_iff hblock (hsquare.symm ▸ hfits)
      (termsAt_product (rfl : input1.length = input1.length) (by omega))
    rw [hsquare, List.zipWith_self] at hgrid
    exact hgrid
  · have hgrid := reduceGrid_reduces_iff hblock (hlength1.symm ▸ hfits)
      (termsAt_readSigned (by omega))
    rw [hlength1] at hgrid
    exact hgrid

end Reduction

/-! ## Lost and counted parts -/

def DeviceConfig.shipped : DeviceConfig where
  toConfig := Config.shipped
  arrayLength_lt := by decide

theorem threadSum_zeros (blockDim n t : ℕ) :
    threadSum blockDim (List.replicate n (0 : ℚ)) t = 0 := by
  apply Finset.sum_eq_zero
  intro k _
  rw [List.getD_eq_getElem?_getD, List.getElem?_getD_replicate_default_eq]

/-- A price put in place of a zero is collected by its thread. -/
theorem threadSum_set
    {terms : List ℚ} {k : ℕ} (hk : k < terms.length)
    (hzero : terms.getD k 0 = 0) (price : ℚ) (blockDim t : ℕ) :
    threadSum blockDim (terms.set k price) t =
      threadSum blockDim terms t + if k % blockDim = t then price else 0 := by
  have hcell : ∀ j, (terms.set k price).getD j 0 =
      terms.getD j 0 + if j = k then price else 0 := by
    intro j
    have hset := congrFun (cellsOf_set hk price) j
    rw [cellsOf, Function.update_apply] at hset
    rw [hset]
    split_ifs with heq
    · rw [heq, hzero, zero_add]
    · rw [add_zero, cellsOf]
  rw [threadSum, threadSum, List.length_set,
    Finset.sum_congr rfl fun j _ => hcell j, Finset.sum_add_distrib,
    Finset.sum_ite_eq']
  simp only [Finset.mem_filter, Finset.mem_range, hk, true_and]

/-- 4096 prices, all zero but for a 1 of thread 1 and a 2 of thread 5. -/
def madeUpPrices : List ℚ := ((List.replicate 4096 0).set 1 1).set 5 2

theorem threadSum_madeUpPrices (t : ℕ) :
    threadSum (2 ^ 3) madeUpPrices t =
      (if 1 = t then 1 else 0) + if 5 = t then 2 else 0 := by
  have hlength : (List.replicate 4096 (0 : ℚ)).length = 4096 :=
    List.length_replicate
  have hcell : ((List.replicate 4096 (0 : ℚ)).set 1 1).getD 5 0 = 0 := by
    rw [List.getD_eq_getElem?_getD, List.getElem?_set_ne (by decide),
      List.getElem?_getD_replicate_default_eq]
  have hzero : (List.replicate 4096 (0 : ℚ)).getD 1 0 = 0 := by
    rw [List.getD_eq_getElem?_getD, List.getElem?_getD_replicate_default_eq]
  rw [madeUpPrices, threadSum_set (by rw [List.length_set, hlength]; decide)
    hcell, threadSum_set (by rw [hlength]; decide) hzero, threadSum_zeros,
    zero_add, Nat.mod_eq_of_lt (by norm_num), Nat.mod_eq_of_lt (by norm_num)]

/-- What thread 5 has collected is not read, and thread 1, which is counted
three times, makes up for it. -/
theorem kernels_reduce_whole_madeUp :
    madeUpPrices.length = DeviceConfig.shipped.priceListSize ∧
      ReducesWhole 3 madeUpPrices ∧
      ∀ (launch : Launch ℚ (2 ^ 3)) (junk : ℚ),
        sum DeviceConfig.shipped.priceListSize 1 (2 ^ 3) launch madeUpPrices
          [junk] = .ok [madeUpPrices.sum] := by
  have hlength : madeUpPrices.length =
      DeviceConfig.shipped.priceListSize := by
    rw [madeUpPrices, List.length_set, List.length_set, List.length_replicate]
    rfl
  have hwhole : ReducesWhole 3 madeUpPrices := by
    right
    simp only [threadSum_madeUpPrices]
    refine ⟨fun t hlow hhigh => ?_, ?_⟩
    · rw [if_neg (by omega), if_neg (by omega), add_zero]
    · norm_num [Finset.sum_Ico_succ_top]
  have hkernels := kernels_reduce_whole_iff DeviceConfig.shipped
    (by decide : 2 ^ 3 ≤ threadsPerBlock) hlength hlength
  exact ⟨hlength, hwhole, hkernels.2.2.mpr hwhole⟩

theorem threadSum_single {n k : ℕ} (hk : k < n) (blockDim t : ℕ) :
    threadSum blockDim ((List.replicate n (0 : ℚ)).set k 1) t =
      if k % blockDim = t then 1 else 0 := by
  have hzero : (List.replicate n (0 : ℚ)).getD k 0 = 0 := by
    rw [List.getD_eq_getElem?_getD, List.getElem?_getD_replicate_default_eq]
  rw [threadSum_set (by rw [List.length_replicate]; exact hk) hzero,
    threadSum_zeros, zero_add]

/-- A price which only thread 5 of 8 reads does not reach the sum. -/
theorem sum_loses_thread_five :
    ¬ ∀ (launch : Launch ℚ (2 ^ 3)) (junk : ℚ),
      sum DeviceConfig.shipped.priceListSize 1 (2 ^ 3) launch
        ((List.replicate 4096 0).set 5 1) [junk] =
          .ok [((List.replicate 4096 (0 : ℚ)).set 5 1).sum] := by
  intro hsum
  have hlength : ((List.replicate 4096 (0 : ℚ)).set 5 1).length = 4096 := by
    rw [List.length_set, List.length_replicate]
  have hgrid := reduceGrid_reduces_iff (by decide : 2 ^ 3 ≤ threadsPerBlock)
    (by rw [hlength]; decide) (termsAt_readSigned (by rw [hlength]; decide))
  rw [hlength] at hgrid
  rcases hgrid.mp hsum with hsmall | ⟨_, hmakeUp⟩
  · omega
  · simp only [threadSum_single (by norm_num : 5 < 4096)] at hmakeUp
    norm_num [Finset.sum_Ico_succ_top] at hmakeUp

end StockFeed
