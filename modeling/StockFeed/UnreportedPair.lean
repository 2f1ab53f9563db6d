import StockFeed.CountedPrices
import StockFeed.PriceGenerator

/-!
# What the server reports on the client's own prices

Every price in a window is the close price of a delivered record of its id, in
every state of every run.  The prices the client draws are at least 28 and at
most 129, so on its datagrams, in whatever order, number and repetition they
arrive, every window which reaches `coefficient` has such prices only.

In exact arithmetic that is enough to decide the pair search.  The reduction
counts each thread between one and thirty times, whatever the orders are, and on
long windows the numerator then outweighs the radicand: no pair is below one,
and the server prints `stock_x` and `stock_y` without having assigned them.
-/

namespace StockFeed

open NeighbourReduction StrictScan

/-! ## Where the prices of a window come from -/

section Provenance

variable {P : Int32 → Int32 → Prop}

/-- All prices of the windows and of the maps handed to `coefficient` satisfy
`P`, given the id of their window. -/
structure Server.PricesFrom (P : Int32 → Int32 → Prop) (s : Server) : Prop where
  windows : ∀ id, ∀ price ∈ s.deque id, P id price
  calls : ∀ call ∈ coefficientCalls s.trace, ∀ id,
    ∀ price ∈ (call.2.find? id).getD [], P id price

theorem Query.windows_pricesFrom
    {cfg : Config} {s s' : Server} {ok : Bool} (hquery : Query cfg s ok s')
    (hwindows : ∀ id, ∀ price ∈ s.deque id, P id price) :
    ∀ id, ∀ price ∈ s'.deque id, P id price :=
  fun id price hprice => hwindows id price ((hquery.suffix id).mem hprice)

theorem Server.windows_pricesFrom_store
    {s : Server} {st : Stock} (hst : P st.id_ st.close_price_)
    (hwindows : ∀ id, ∀ price ∈ s.deque id, P id price) (ok : Bool)
    (loop_id : Int32) :
    ∀ id, ∀ price ∈ (s.store ok loop_id st).deque id, P id price := by
  intro id price hprice
  rw [Server.deque_store] at hprice
  by_cases heq : id = st.id_
  · subst heq
    rw [if_pos rfl, List.mem_append, List.mem_singleton] at hprice
    rcases hprice with hold | hnew
    · cases ok with
      | false => exact hwindows _ _ hold
      | true => exact hwindows _ _ (List.mem_of_mem_tail hold)
    · rw [hnew]
      exact hst
  · rw [if_neg heq] at hprice
    exact hwindows id price hprice

theorem RecordStep.pricesFrom
    {cfg : Config} {loop_id : Int32} {st : Stock} {s s' : Server}
    (hstep : RecordStep cfg loop_id st s s') (hst : P st.id_ st.close_price_)
    (hprices : s.PricesFrom P) : s'.PricesFrom P := by
  cases hstep with
  | untracked _ => exact hprices
  | @stored ok s₁ _ hquery _ =>
      refine ⟨Server.windows_pricesFrom_store hst
        (hquery.windows_pricesFrom hprices.windows) ok loop_id, ?_⟩
      intro call hcall
      rw [hquery.frame] at hcall
      apply hprices.calls
      simpa [Server.store] using hcall
  | @batch ok ok' s₁ s₂ _ hquery _ hagain =>
      have hstored := Server.windows_pricesFrom_store hst
        (hquery.windows_pricesFrom hprices.windows) ok loop_id
      have hwindows : ∀ id, ∀ price ∈ s₂.deque id, P id price :=
        hagain.windows_pricesFrom hstored
      refine ⟨?_, ?_⟩
      · intro id price hprice
        rw [Server.deque_finish] at hprice
        exact hwindows id price hprice
      · have hbefore : coefficientCalls s₂.trace = coefficientCalls s.trace := by
          rw [hagain.frame]
          simp only [Server.announce, Server.store]
          rw [hquery.frame]
          simp [coefficientCalls]
        intro call hcall
        cases ok' with
        | false =>
            simp only [Server.finish, Bool.false_eq_true, if_false] at hcall
            exact hprices.calls call (hbefore ▸ hcall)
        | true =>
            simp only [Server.finish, if_true, coefficientCalls_append,
              List.mem_append] at hcall
            rcases hcall with hold | hnew
            · exact hprices.calls call (hbefore ▸ hold)
            · have heq : call = (loop_id, s₂.g_priceMap) := by
                simpa [coefficientCalls] using hnew
              rw [heq]
              exact hwindows

theorem recordsState_pricesFrom
    {cfg : Config} {s : Server} (hsound : s.Sound cfg) (loop_id : Int32)
    {records : List Stock} (hrecords : ∀ st ∈ records, P st.id_ st.close_price_)
    (hprices : s.PricesFrom P) :
    (recordsState cfg loop_id s records).PricesFrom P := by
  induction records generalizing s with
  | nil => exact hprices
  | cons st rest ih =>
      have hstep := recordStep_recordState hsound loop_id st
      exact ih (hstep.sound hsound)
        (fun st' hst' => hrecords st' (List.mem_cons_of_mem st hst'))
        (hstep.pricesFrom (hrecords st List.mem_cons_self) hprices)

theorem runState_pricesFrom
    (cfg : Config) {payloads : List Payload}
    (hrecords : ∀ p ∈ payloads, ∀ st ∈ p.records, P st.id_ st.close_price_) :
    (runState cfg payloads).PricesFrom P := by
  induction payloads using List.reverseRecOn with
  | nil =>
      refine ⟨?_, by simp [Server.initial, coefficientCalls]⟩
      intro id price hprice
      rw [runState_nil, deque_initial] at hprice
      exact absurd hprice List.not_mem_nil
  | append_singleton payloads payload ih =>
      have hbefore := ih fun p hp => hrecords p (List.mem_append_left _ hp)
      rw [runState_concat]
      unfold payloadState
      split_ifs
      · exact hbefore
      · exact recordsState_pricesFrom
          ((runState_sound cfg payloads).withLastLoop _) _
          (hrecords payload (by simp)) ⟨hbefore.windows, hbefore.calls⟩

end Provenance

/-! ## Bounds on counted sums -/

section Counted

variable {K : Type}

/-- The shares of the first `q` rounds over all threads. -/
theorem sum_share_rounds (g : ℕ → ℕ) (q : ℕ) :
    ∑ k ∈ Finset.range (threadNum * q), g (k % threadNum) =
      q * ∑ t ∈ Finset.range threadNum, g t := by
  induction q with
  | zero => simp
  | succ q ih =>
      have hround : ∀ t ∈ Finset.range threadNum,
          g ((threadNum * q + t) % threadNum) = g t := by
        intro t ht
        rw [Nat.mul_add_mod, Nat.mod_eq_of_lt (Finset.mem_range.mp ht)]
      rw [Nat.mul_succ, Finset.sum_range_add, ih, Finset.sum_congr rfl hround,
        Nat.succ_mul]

/-- How often the reduction counts the prices of a window of length `n`,
together. -/
theorem sum_share_window (launch : Launch K threadNum) (n : ℕ) :
    8 * (n / 8) ≤ ∑ k ∈ Finset.range n,
        share (launch.schedule 0).active 3 (k % threadNum) ∧
      ∑ k ∈ Finset.range n,
          share (launch.schedule 0).active 3 (k % threadNum) ≤
        30 * (n / 8 + 1) := by
  have hperm : ∀ j < 3, ((launch.schedule 0).active (2 ^ j)).Perm
      (List.range (2 ^ j)) := by
    intro j hj
    apply Schedule.active_perm
    interval_cases j <;> decide
  obtain ⟨hlow, hhigh⟩ := sum_share_bounds hperm
  have hthirty : ∏ j ∈ Finset.range 3, (2 ^ j + 1) = 30 := by decide
  have height : (2 : ℕ) ^ 3 = threadNum := rfl
  rw [hthirty, height] at hhigh
  rw [height] at hlow
  generalize hg : share (launch.schedule 0).active 3 = g at hlow hhigh ⊢
  have hdiv := Nat.div_add_mod n 8
  have hmod := Nat.mod_lt n (show 0 < 8 by norm_num)
  constructor
  · calc
      8 * (n / 8) = n / 8 * 8 := mul_comm _ _
      _ ≤ n / 8 * ∑ t ∈ Finset.range threadNum, g t :=
        Nat.mul_le_mul_left _ hlow
      _ = ∑ k ∈ Finset.range (threadNum * (n / 8)), g (k % threadNum) :=
        (sum_share_rounds g _).symm
      _ ≤ ∑ k ∈ Finset.range n, g (k % threadNum) :=
        Finset.sum_le_sum_of_subset
          (Finset.range_mono (show threadNum * (n / 8) ≤ n from
            Nat.mul_div_le n 8))
  · calc
      ∑ k ∈ Finset.range n, g (k % threadNum) ≤
          ∑ k ∈ Finset.range (threadNum * (n / 8 + 1)), g (k % threadNum) :=
        Finset.sum_le_sum_of_subset (Finset.range_mono
          (show n ≤ 8 * (n / 8 + 1) by omega))
      _ = (n / 8 + 1) * ∑ t ∈ Finset.range threadNum, g t :=
        sum_share_rounds g _
      _ ≤ (n / 8 + 1) * 30 := Nat.mul_le_mul_left _ hhigh
      _ = 30 * (n / 8 + 1) := mul_comm _ _

/-- Bounds on the single values bound the sum, in every thread order. -/
theorem countedSum_bounds
    (launch : Launch K threadNum) {values : List ℤ} {v w : ℤ}
    (hv : 0 ≤ v) (hw : 0 ≤ w) (hvalues : ∀ x ∈ values, v ≤ x ∧ x ≤ w) :
    v * (8 * (values.length / 8 : ℕ)) ≤ countedSum launch values ∧
      countedSum launch values ≤ w * (30 * ((values.length / 8 : ℕ) + 1)) := by
  obtain ⟨hlow, hhigh⟩ := sum_share_window launch values.length
  have hterm : ∀ k ∈ Finset.range values.length,
      v ≤ values.getD k 0 ∧ values.getD k 0 ≤ w := by
    intro k hk
    have hlt := Finset.mem_range.mp hk
    rw [List.getD_eq_getElem values 0 hlt]
    exact hvalues _ (List.getElem_mem hlt)
  have hshares : ∀ c : ℤ, c * (∑ k ∈ Finset.range values.length,
      share (launch.schedule 0).active 3 (k % threadNum) : ℕ) =
        ∑ k ∈ Finset.range values.length,
          (share (launch.schedule 0).active 3 (k % threadNum) : ℤ) * c := by
    intro c
    rw [Nat.cast_sum, Finset.mul_sum]
    exact Finset.sum_congr rfl fun k _ => mul_comm _ _
  constructor
  · calc
      v * (8 * (values.length / 8 : ℕ)) ≤
          v * (∑ k ∈ Finset.range values.length,
            share (launch.schedule 0).active 3 (k % threadNum) : ℕ) :=
        mul_le_mul_of_nonneg_left (by exact_mod_cast hlow) hv
      _ = ∑ k ∈ Finset.range values.length,
            (share (launch.schedule 0).active 3 (k % threadNum) : ℤ) * v :=
        hshares v
      _ ≤ countedSum launch values :=
        Finset.sum_le_sum fun k hk =>
          mul_le_mul_of_nonneg_left (hterm k hk).1 (Nat.cast_nonneg _)
  · calc
      countedSum launch values ≤ ∑ k ∈ Finset.range values.length,
            (share (launch.schedule 0).active 3 (k % threadNum) : ℤ) * w :=
        Finset.sum_le_sum fun k hk =>
          mul_le_mul_of_nonneg_left (hterm k hk).2 (Nat.cast_nonneg _)
      _ = w * (∑ k ∈ Finset.range values.length,
            share (launch.schedule 0).active 3 (k % threadNum) : ℕ) :=
        (hshares w).symm
      _ ≤ w * (30 * ((values.length / 8 : ℕ) + 1)) :=
        mul_le_mul_of_nonneg_left (by exact_mod_cast hhigh) hw

end Counted

/-! ## No pair is below one -/

section Search

variable {K : Type}

/-- Integer sums whose numerator outweighs the radicand. -/
theorem not_belowOne_of_outweighed
    {cfg : Config} {sums : Sums ℤ} {c : ℤ} (hdot : 0 ≤ sums.dot)
    (hdot' : sums.dot ≤ c) (hx : c ≤ cfg.priceListSize * sums.sum_x_2)
    (hx' : cfg.priceListSize * sums.sum_x_2 ≤ sums.sum_x ^ 2)
    (hy : c ≤ cfg.priceListSize * sums.sum_y_2)
    (hy' : cfg.priceListSize * sums.sum_y_2 ≤ sums.sum_y ^ 2)
    (hprod : c ≤ sums.sum_x * sums.sum_y) : ¬ BelowOne cfg sums := by
  have hc : 0 ≤ c := hdot.trans hdot'
  rw [BelowOne, not_lt]
  calc
    (cfg.priceListSize * sums.sum_x_2 - sums.sum_x ^ 2) *
        (cfg.priceListSize * sums.sum_y_2 - sums.sum_y ^ 2) =
        (sums.sum_x ^ 2 - cfg.priceListSize * sums.sum_x_2) *
          (sums.sum_y ^ 2 - cfg.priceListSize * sums.sum_y_2) := by ring
    _ ≤ (sums.sum_x ^ 2 - c) * (sums.sum_y ^ 2 - c) :=
      mul_le_mul (by omega) (by omega) (by omega) (by omega)
    _ = (sums.sum_x * sums.sum_y - c) ^ 2 -
          c * (sums.sum_x - sums.sum_y) ^ 2 := by ring
    _ ≤ (sums.sum_x * sums.sum_y - c) ^ 2 :=
      sub_le_self _ (mul_nonneg hc (sq_nonneg _))
    _ ≤ (sums.sum_x * sums.sum_y - sums.dot) ^ 2 :=
      pow_le_pow_left₀ (by omega) (by omega) 2
    _ = (sums.dot - sums.sum_x * sums.sum_y) ^ 2 := by ring

/-- The range of the close prices the client draws. -/
def ClientPrice (price : Int32) : Prop :=
  28 ≤ price.toInt ∧ price.toInt ≤ 129

theorem ClientPrice.mul_bounds
    {a b : Int32} (ha : ClientPrice a) (hb : ClientPrice b) :
    0 ≤ a.toInt * b.toInt ∧ a.toInt * b.toInt ≤ 16641 := by
  obtain ⟨halow, hahigh⟩ := ha
  obtain ⟨hblow, hbhigh⟩ := hb
  constructor
  · exact mul_nonneg (by omega) (by omega)
  · calc
      a.toInt * b.toInt ≤ 129 * 129 :=
        mul_le_mul hahigh hbhigh (by omega) (by norm_num)
      _ = 16641 := by norm_num

theorem countedSum_clientPrices
    (launch : Launch K threadNum) {window : List Int32}
    (hwindow : ∀ price ∈ window, ClientPrice price) :
    28 * (8 * (window.length / 8 : ℕ)) ≤
        countedSum launch (window.map Int32.toInt) ∧
      countedSum launch (window.map Int32.toInt) ≤
        129 * (30 * ((window.length / 8 : ℕ) + 1)) := by
  have hbounds := countedSum_bounds launch
    (by norm_num : (0 : ℤ) ≤ 28) (by norm_num : (0 : ℤ) ≤ 129)
    (List.forall_mem_map.mpr hwindow)
  rw [List.length_map] at hbounds
  exact hbounds

theorem countedSum_products
    (launch : Launch K threadNum) {x y : List Int32}
    (hlength : x.length = y.length) (hx : ∀ price ∈ x, ClientPrice price)
    (hy : ∀ price ∈ y, ClientPrice price) :
    let products := List.zipWith (fun a b => a.toInt * b.toInt) x y
    0 ≤ countedSum launch products ∧
      countedSum launch products ≤ 16641 * (30 * ((x.length / 8 : ℕ) + 1)) := by
  intro products
  have hproducts : ∀ product ∈ products, 0 ≤ product ∧ product ≤ 16641 := by
    intro product hproduct
    obtain ⟨k, hk, rfl⟩ := List.mem_iff_getElem.mp hproduct
    rw [List.getElem_zipWith]
    exact (hx _ (List.getElem_mem _)).mul_bounds (hy _ (List.getElem_mem _))
  have hbounds := countedSum_bounds launch (by norm_num : (0 : ℤ) ≤ 0)
    (by norm_num : (0 : ℤ) ≤ 16641) hproducts
  rw [List.length_zipWith, hlength, Nat.min_self, zero_mul] at hbounds
  rw [hlength]
  exact hbounds

/-- Windows of at least 2400 prices of the client, in every thread order. -/
theorem not_belowOne_clientPrices
    {cfg : Config} (hlong : 2400 ≤ cfg.priceListSize) (orders : ThreadOrders K)
    {x y : List Int32} (hx : x.length = cfg.priceListSize)
    (hy : y.length = cfg.priceListSize) (hxs : ∀ price ∈ x, ClientPrice price)
    (hys : ∀ price ∈ y, ClientPrice price) :
    ¬ BelowOne cfg (orders.countedSums x y) := by
  obtain ⟨hdot, hdot'⟩ := countedSum_products orders.dot (hx.trans hy.symm) hxs hys
  obtain ⟨hsx, _⟩ := countedSum_clientPrices orders.sum_x hxs
  obtain ⟨hsy, _⟩ := countedSum_clientPrices orders.sum_y hys
  obtain ⟨hsx2, hsx2'⟩ := countedSum_clientPrices orders.sum_x_2 hxs
  obtain ⟨hsy2, hsy2'⟩ := countedSum_clientPrices orders.sum_y_2 hys
  rw [hx] at hdot' hsx hsx2 hsx2'
  rw [hy] at hsy hsy2 hsy2'
  have hdiv := Nat.div_add_mod cfg.priceListSize 8
  have hmod := Nat.mod_lt cfg.priceListSize (show 0 < 8 by norm_num)
  have hq : 300 ≤ cfg.priceListSize / 8 := by omega
  generalize cfg.priceListSize / 8 = q at *
  have hN : (8 * q : ℤ) ≤ cfg.priceListSize := by omega
  have hN' : (cfg.priceListSize : ℤ) ≤ 8 * q + 7 := by omega
  have hqz : (300 : ℤ) ≤ q := by exact_mod_cast hq
  apply not_belowOne_of_outweighed (c := cfg.priceListSize * (28 * (8 * q)))
    hdot
  · change countedSum _ _ ≤ _
    nlinarith
  · change _ ≤ _ * countedSum _ _
    nlinarith
  · change _ * countedSum _ _ ≤ countedSum _ _ ^ 2
    nlinarith
  · change _ ≤ _ * countedSum _ _
    nlinarith
  · change _ * countedSum _ _ ≤ countedSum _ _ ^ 2
    nlinarith
  · change _ ≤ countedSum _ _ * countedSum _ _
    nlinarith

variable [Field K] [LinearOrder K] [IsStrictOrderedRing K]

theorem foundSearch_clientPrices
    {cfg : Config} (hlong : 2400 ≤ cfg.priceListSize) (sqrt : SquareRoot K)
    (orders : ℕ → ℕ → ThreadOrders K) {data : StockPriceMap}
    (hmap : FullMap cfg data)
    (hprices : ∀ id, ∀ price ∈ (data.find? id).getD [], ClientPrice price) :
    foundSearch cfg sqrt orders data = ⟨1, none⟩ := by
  have hlength : ∀ i < cfg.serverStock,
      (readPrices cfg data i).length = cfg.priceListSize := by
    intro i hi
    have hwindow := length_deviceWindow (K := K) hmap hi
    rwa [deviceWindow, floatWindow, List.length_map] at hwindow
  have hread : ∀ i, ∀ price ∈ readPrices cfg data i, ClientPrice price :=
    fun i price hprice => hprices _ price (List.mem_of_mem_take hprice)
  have hnone : (foundSearch cfg sqrt orders data).stocks = none := by
    rw [← Option.not_isSome_iff_eq_none, Option.isSome_iff_exists,
      foundSearch_stocks_iff]
    rintro ⟨i, j, hij, hj, hbelow⟩
    exact not_belowOne_clientPrices hlong _ (hlength i (hij.trans hj))
      (hlength j hj) (hread i) (hread j) hbelow
  rcases (scanned_scan (pairValue cfg sqrt orders (deviceWindow K cfg data)) 1
    (pairs cfg.serverStock)).attained with hstart | ⟨_, kept, _, _, hkept, _⟩
  · rw [foundSearch, hstart]
  · rw [foundSearch] at hnone
    exact absurd (hkept.symm.trans hnone) (Option.some_ne_none kept)

/-- The search on such windows ends as it started, in exact arithmetic. -/
theorem coefficient_clientPrices
    (cfg : DeviceConfig) (hlong : 2400 ≤ cfg.priceListSize)
    (sqrt : SquareRoot K) (junk : Junk K) (orders : ℕ → ℕ → ThreadOrders K)
    {data : StockPriceMap} (hmap : FullMap cfg.toConfig data)
    (hprices : ∀ id, ∀ price ∈ (data.find? id).getD [], ClientPrice price) :
    ∃ device, coefficient cfg.toConfig sqrt junk
        (fun i j => (orders i j).launches cfg.toConfig) data
        (Device.initial K) = .error .outOfRange device ∧
      device.printed = some ⟨1, none⟩ := by
  refine ⟨_, coefficient_apply cfg hmap sqrt junk orders, ?_⟩
  rw [searchedDevice, foundSearch_clientPrices hlong sqrt orders hmap hprices]
  rfl

/-- If the server only receives datagrams of the client, from any number of its
runs and in any order, loss or repetition, each call of `coefficient` in exact
arithmetic ends its search as it started it: `min_cof` is 1 and no pair has been
assigned. -/
theorem client_pair_never_assigned
    (cfg : DeviceConfig) (hlong : 2400 ≤ cfg.priceListSize)
    (sqrt : SquareRoot K) (junk : Junk K) (orders : ℕ → ℕ → ThreadOrders K)
    (payloads : List Payload)
    (hclient : ∀ p ∈ payloads, FromClient cfg.toConfig p) :
    ∃ s, runPayloads cfg.toConfig payloads = .ok () s ∧
      ∀ loop_id data, (loop_id, data) ∈ coefficientCalls s.trace →
        ∃ device, coefficient cfg.toConfig sqrt junk
            (fun i j => (orders i j).launches cfg.toConfig) data
            (Device.initial K) = .error .outOfRange device ∧
          device.printed = some ⟨1, none⟩ := by
  have hrun := runPayloads_ok cfg.toConfig payloads
  have hprices : (runState cfg.toConfig payloads).PricesFrom
      fun _ price => ClientPrice price :=
    runState_pricesFrom cfg.toConfig fun p hp st hst =>
      ((hclient p hp).drawn st hst).close_bounds
  refine ⟨_, hrun, ?_⟩
  intro loop_id data hcall
  exact coefficient_clientPrices cfg hlong sqrt junk orders
    (fullMap_of_call hrun hcall) (hprices.calls _ hcall)

end Search

/-- At the constants of the header, 4096 loops with a `rand` that returns 0. -/
theorem client_pair_never_assigned_shipped :
    let payloads := (List.range 4096).flatMap
      (loopPayloads Config.shipped (randQuotes Config.shipped fun _ => 0))
    ∃ s, runPayloads Config.shipped payloads = .ok () s ∧
      ∃ data, (4095, data) ∈ coefficientCalls s.trace ∧
        ∃ device, coefficient Config.shipped .real ⟨0, 0⟩
            (fun _ _ => (ThreadOrders.inOrder ℝ).launches Config.shipped) data
            (Device.initial ℝ) = .error .outOfRange device ∧
          device.printed = some ⟨1, none⟩ := by
  intro payloads
  have hcall := windowsAt_mem_calls Config.shipped
    (randQuotes Config.shipped fun _ => 0)
    (le_refl (4095 + 1) : Config.shipped.priceListSize ≤ 4095 + 1)
    (by norm_num : 4095 < 4096) (by norm_num)
  obtain ⟨s, hrun, hcalls⟩ := client_pair_never_assigned DeviceConfig.shipped
    (by decide) .real ⟨0, 0⟩ (fun _ _ => .inOrder ℝ) payloads (by
      intro p hp
      obtain ⟨lc, _, hmem⟩ := List.mem_flatMap.mp hp
      exact fromClient_of_mem_loopPayloads hmem)
  have hstate : s = runState Config.shipped payloads := by
    have hsame := hrun.symm.trans (runPayloads_ok Config.shipped payloads)
    injection hsame
  change _ ∈ coefficientCalls (runState Config.shipped payloads).trace at hcall
  rw [← hstate] at hcall
  exact ⟨s, hrun, _, hcall, hcalls _ _ hcall⟩

end StockFeed
