import StockFeed.PairSearch

/-!
# A whole call of coefficient

The server calls `coefficient` on maps whose keys are the tracked ids and whose
windows have at least `PRICE_LIST_SIZE` prices.  On such a map all windows are
loaded, the pair search runs to its end and its result is printed, without a
subscript outside its array.  The loop which should free the windows then reads
`array[loop]`, one behind the last pointer, in every one of its turns.
-/

namespace StockFeed

open StateAction StrictScan

/-! ## Maps the server hands over -/

/-- A map with a window for each tracked id, long enough to be read. -/
structure FullMap (cfg : Config) (data : StockPriceMap) : Prop where
  keys : data.keys = trackedIds cfg
  full : ∀ id ∈ trackedIds cfg,
    cfg.priceListSize ≤ ((data.find? id).getD []).length

theorem RecordStep.calls_full
    {cfg : Config} {loop_id : Int32} {st : Stock} {s s' : Server}
    (hsound : s.Sound cfg) (hstep : RecordStep cfg loop_id st s s')
    (hcalls : ∀ call ∈ coefficientCalls s.trace, FullMap cfg call.2) :
    ∀ call ∈ coefficientCalls s'.trace, FullMap cfg call.2 := by
  cases hstep with
  | untracked _ => exact hcalls
  | @stored ok s₁ _ hquery _ =>
      intro call hcall
      rw [hquery.frame] at hcall
      apply hcalls
      simpa [Server.store] using hcall
  | @batch ok ok' s₁ s₂ hid hquery _ hagain =>
      have hbefore : coefficientCalls s₂.trace = coefficientCalls s.trace := by
        rw [hagain.frame]
        simp only [Server.announce, Server.store]
        rw [hquery.frame]
        simp [coefficientCalls]
      have hkeys := hquery.store_keys hsound hid loop_id
      intro call hcall
      cases ok' with
      | false =>
          simp only [Server.finish, Bool.false_eq_true, if_false] at hcall
          exact hcalls call (hbefore ▸ hcall)
      | true =>
          simp only [Server.finish, if_true, coefficientCalls_append,
            List.mem_append] at hcall
          rcases hcall with hold | hnew
          · exact hcalls call (hbefore ▸ hold)
          · have hcall : call = (loop_id, s₂.g_priceMap) := by
              simpa [coefficientCalls] using hnew
            rw [hcall]
            exact ⟨hagain.keys.trans hkeys,
              hagain.full hkeys (hquery.store_full hsound loop_id st)⟩

theorem runState_calls_full (cfg : Config) (payloads : List Payload) :
    ∀ call ∈ coefficientCalls (runState cfg payloads).trace,
      FullMap cfg call.2 := by
  let Inv : Server → Prop := fun s =>
    ∀ call ∈ coefficientCalls s.trace, FullMap cfg call.2
  have hinit : Inv (Server.initial cfg) := by
    simp [Inv, Server.initial, coefficientCalls]
  have hlast : ∀ s loop_id, Inv s → Inv { s with g_last_loop := loop_id } :=
    fun s loop_id hcalls => hcalls
  have hrecord : ∀ s s' loop_id st, s.Sound cfg → Inv s →
      RecordStep cfg loop_id st s s' → Inv s' :=
    fun s s' loop_id st hsound hcalls hstep => hstep.calls_full hsound hcalls
  exact runState_invariant hinit hlast hrecord payloads

theorem fullMap_of_call
    {cfg : Config} {payloads : List Payload} {s : Server}
    (hrun : runPayloads cfg payloads = .ok () s) {loop_id : Int32}
    {data : StockPriceMap}
    (hcall : (loop_id, data) ∈ coefficientCalls s.trace) :
    FullMap cfg data := by
  rw [runPayloads_ok, EStateM.Result.ok.injEq] at hrun
  rw [← hrun.2] at hcall
  exact runState_calls_full cfg payloads _ hcall

/-! ## Loading the windows -/

section Loading

variable {K : Type} [IntCast K]

/-- The prices of stock `i` which are read. -/
def readPrices (cfg : Config) (data : StockPriceMap) (i : ℕ) : List Int32 :=
  ((data.find? (Int32.ofNat i)).getD []).take cfg.priceListSize

/-- What stock `i` has on the device. -/
def deviceWindow (K : Type) [IntCast K] (cfg : Config) (data : StockPriceMap)
    (i : ℕ) : List K :=
  floatWindow K (readPrices cfg data i)

theorem length_deviceWindow
    {cfg : Config} {data : StockPriceMap} (hmap : FullMap cfg data) {i : ℕ}
    (hi : i < cfg.serverStock) :
    (deviceWindow K cfg data i).length = cfg.priceListSize := by
  have hfull := hmap.full (Int32.ofNat i) (mem_trackedIds.mpr ⟨i, hi, rfl⟩)
  rw [deviceWindow, floatWindow, List.length_map, readPrices, List.length_take]
  omega

/-- The device after `k` windows. -/
def loadedDevice (K : Type) [IntCast K] (cfg : Config) (data : StockPriceMap)
    (k : ℕ) : Device K where
  memory := (List.range k).map fun i => some (deviceWindow K cfg data i)
  ops := (List.range k).map .cudaMalloc
  printed := none

/-- The device with an array for window `k`, which is not yet copied. -/
def allocatedDevice (cfg : Config) (junk : Junk K) (data : StockPriceMap)
    (k : ℕ) : Device K :=
  { loadedDevice K cfg data k with
    memory := (loadedDevice K cfg data k).memory ++
      [some (List.replicate cfg.priceListSize junk.cell)]
    ops := (loadedDevice K cfg data k).ops ++ [.cudaMalloc k] }

theorem length_memory_loadedDevice
    (cfg : Config) (data : StockPriceMap) (k : ℕ) :
    (loadedDevice K cfg data k).memory.length = k := by
  simp [loadedDevice]

theorem cudaMalloc_loadedDevice
    (cfg : Config) (junk : Junk K) (data : StockPriceMap) (k : ℕ) :
    cudaMalloc junk cfg.priceListSize (loadedDevice K cfg data k) =
      .ok k (allocatedDevice cfg junk data k) := by
  rw [cudaMalloc]
  simp only [allocatedDevice]
  change EStateM.Result.ok _ _ = _
  simp only [length_memory_loadedDevice]

theorem cudaMemcpy_allocatedDevice
    {cfg : Config} {data : StockPriceMap} (hmap : FullMap cfg data)
    (junk : Junk K) {k : ℕ} (hk : k < cfg.serverStock) :
    cudaMemcpyHostToDevice k (deviceWindow K cfg data k) cfg.priceListSize
        (allocatedDevice cfg junk data k) =
      .ok () (loadedDevice K cfg data (k + 1)) := by
  have hlength := length_memory_loadedDevice (K := K) cfg data k
  have hlive : (allocatedDevice cfg junk data k).memory[k]? =
      some (some (List.replicate cfg.priceListSize junk.cell)) := by
    have hself := getElem?_concat_self (loadedDevice K cfg data k).memory
      (some (List.replicate cfg.priceListSize junk.cell))
    rw [hlength] at hself
    exact hself
  have hcopy : copyOver cfg.priceListSize (deviceWindow K cfg data k)
      (List.replicate cfg.priceListSize junk.cell) =
        .ok (deviceWindow K cfg data k) := by
    have hwindow := length_deviceWindow (K := K) hmap hk
    rw [copyOver, if_pos ⟨hwindow.ge, by simp⟩, ← hwindow, List.take_length,
      List.drop_replicate, Nat.sub_self, List.replicate_zero, List.append_nil]
  have hset : (allocatedDevice cfg junk data k).memory.set k
      (some (deviceWindow K cfg data k)) =
        (loadedDevice K cfg data (k + 1)).memory := by
    have hself := set_concat_self (loadedDevice K cfg data k).memory
      (some (List.replicate cfg.priceListSize junk.cell))
      (some (deviceWindow K cfg data k))
    rw [hlength] at hself
    simp only [allocatedDevice]
    rw [hself, loadedDevice, loadedDevice, List.range_succ, List.map_append]
    rfl
  have hops : (allocatedDevice cfg junk data k).ops =
      (loadedDevice K cfg data (k + 1)).ops := by
    simp [allocatedDevice, loadedDevice, List.range_succ]
  rw [cudaMemcpyHostToDevice, bind_apply_of_ok (deviceArray_apply hlive),
    bind_apply_of_ok (liftChecked_apply hcopy _), setDeviceArray,
    modify_apply, hset, hops]
  rfl

theorem loadWindow_apply
    {cfg : Config} {data : StockPriceMap} (hmap : FullMap cfg data)
    (junk : Junk K) {k : ℕ} (hk : k < cfg.serverStock) {array : List ℕ}
    (harray : k < array.length) :
    loadWindow cfg junk data array k (loadedDevice K cfg data k) =
      .ok (array.set k k) (loadedDevice K cfg data (k + 1)) := by
  have hfull := hmap.full (Int32.ofNat k) (mem_trackedIds.mpr ⟨k, hk, rfl⟩)
  have hconvert : convertWindow cfg junk
      ((data.find? (Int32.ofNat k)).getD []) =
        .ok (deviceWindow K cfg data k) := convertWindow_eq hfull junk
  have hread : readAt (array.set k k) k = .ok k := by
    rw [readAt, List.getElem?_set_self harray]
  rw [loadWindow, bind_apply_of_ok (liftChecked_apply hconvert _),
    bind_apply_of_ok (cudaMalloc_loadedDevice cfg junk data k),
    bind_apply_of_ok (liftChecked_apply (writeAt_of_lt harray k) _),
    bind_apply_of_ok (liftChecked_apply hread _),
    bind_apply_of_ok (cudaMemcpy_allocatedDevice hmap junk hk)]
  rfl

theorem loadWindows_apply
    {cfg : Config} {data : StockPriceMap} (hmap : FullMap cfg data)
    (junk : Junk K) {k : ℕ} (hk : k ≤ cfg.serverStock) :
    (List.range k).foldlM (loadWindow cfg junk data)
        (List.replicate cfg.serverStock junk.pointer) (Device.initial K) =
      .ok (List.range k ++ List.replicate (cfg.serverStock - k) junk.pointer)
        (loadedDevice K cfg data k) := by
  induction k with
  | zero => rfl
  | succ k ih =>
      have hset : (List.range k ++
          List.replicate (cfg.serverStock - k) junk.pointer).set k k =
            List.range (k + 1) ++
              List.replicate (cfg.serverStock - (k + 1)) junk.pointer := by
        obtain ⟨rest, hrest⟩ := Nat.exists_eq_add_of_lt hk
        rw [hrest, show k + rest + 1 - k = rest + 1 by omega,
          show k + rest + 1 - (k + 1) = rest by omega, List.replicate_succ,
          List.set_append_right _ _ (by simp), List.range_succ,
          List.append_assoc]
        simp
      rw [List.range_succ, List.foldlM_append, bind_apply_of_ok (ih (by omega)),
        List.foldlM_cons, bind_apply_of_ok (loadWindow_apply hmap junk
          (by omega) (by simp; omega)), hset, ← List.range_succ]
      rfl

theorem loadedDevice_holds
    (cfg : Config) (data : StockPriceMap) :
    (loadedDevice K cfg data cfg.serverStock).Holds
      (List.range cfg.serverStock) cfg.serverStock (deviceWindow K cfg data) := by
  intro i hi
  refine ⟨i, List.getElem?_range hi, ?_⟩
  simp [loadedDevice, List.getElem?_range hi]

end Loading

/-! ## The whole call -/

section AnyFloat

variable {K V : Type} [IntCast K] [Zero K] [One K] [Add K] [Mul K]

/-- The device when `array[loop]` is read, after the search found `search`. -/
def printedDevice (cfg : Config) (data : StockPriceMap) (search : Search K) :
    Device K :=
  { (loadedDevice K cfg data cfg.serverStock).afterPairs
      (pairs cfg.serverStock).length with printed := some search }

theorem coefficientWith_apply
    (host : HostFloat K V) (cfg : DeviceConfig) {data : StockPriceMap}
    (hmap : FullMap cfg.toConfig data) (junk : Junk K)
    (orders : ℕ → ℕ → ThreadOrders K) :
    coefficientWith host cfg.toConfig junk
        (fun i j => (orders i j).launches cfg.toConfig) data
        (Device.initial K) =
      .error .outOfRange (printedDevice cfg.toConfig data
        ((pairs cfg.serverStock).foldl (fun search p => host.consider p.1 p.2
          (host.quotient ((orders p.1 p.2).sums
            (deviceWindow K cfg.toConfig data p.1)
            (deviceWindow K cfg.toConfig data p.2)).accumulated) search)
          ⟨1, none⟩)) := by
  have hload := loadWindows_apply hmap junk le_rfl
  rw [Nat.sub_self, List.replicate_zero, List.append_nil] at hload
  have hsearch := pairSearchWith_apply host junk orders
    (loadedDevice_holds (K := K) cfg.toConfig data)
    fun i hi => length_deviceWindow hmap hi
  have hread : readAt (List.range cfg.serverStock) cfg.serverStock =
      .error .outOfRange := readAt_of_ge (by simp)
  have hturn : ∀ device : Device K,
      (liftChecked (readAt (List.range cfg.serverStock) cfg.serverStock) >>=
        cudaFree : DeviceM K Unit) device = .error .outOfRange device := by
    intro device
    rw [hread]
    rfl
  -- the first turn of the last loop already reads behind the array
  rw [coefficientWith, bind_apply_of_ok hload, bind_apply_of_ok hsearch,
    bind_apply_of_ok (modify_apply _ _), bind_apply_of_error
      (forM_range_apply_of_error cfg.serverStock_pos (hturn _))]
  rfl

end AnyFloat

section Call

variable {K : Type} [Field K] [LinearOrder K]

/-- What the pair search finds on a map. -/
def foundSearch (cfg : Config) (sqrt : SquareRoot K)
    (orders : ℕ → ℕ → ThreadOrders K) (data : StockPriceMap) : Search K :=
  let found := scan (pairValue cfg sqrt orders (deviceWindow K cfg data)) 1
    (pairs cfg.serverStock)
  ⟨found.1, found.2⟩

/-- The device when `array[loop]` is read. -/
def searchedDevice (cfg : Config) (sqrt : SquareRoot K)
    (orders : ℕ → ℕ → ThreadOrders K) (data : StockPriceMap) : Device K :=
  printedDevice cfg data (foundSearch cfg sqrt orders data)

theorem coefficient_apply
    (cfg : DeviceConfig) {data : StockPriceMap}
    (hmap : FullMap cfg.toConfig data) (sqrt : SquareRoot K) (junk : Junk K)
    (orders : ℕ → ℕ → ThreadOrders K) :
    coefficient cfg.toConfig sqrt junk
        (fun i j => (orders i j).launches cfg.toConfig) data
        (Device.initial K) =
      .error .outOfRange (searchedDevice cfg.toConfig sqrt orders data) := by
  have hscan := foldl_eq_scan (fun search p => consider_eq_step
    (rfl : pairValue cfg.toConfig sqrt orders
      (deviceWindow K cfg.toConfig data) p = _) search)
    (pairs cfg.serverStock) ⟨1, none⟩
  have hcall := coefficientWith_apply (.exact cfg.toConfig sqrt) cfg hmap junk
    orders
  simp only [Sums.accumulated_eq] at hcall
  rw [coefficient, hcall]
  exact congrArg (fun search => EStateM.Result.error Halt.outOfRange
    (printedDevice cfg.toConfig data search)) hscan

end Call

/-! ## Index and handle discipline -/

section Discipline

/-- Each handle of `cudaMalloc` is freed exactly once, and nothing else is. -/
def HandlesFreedOnce (ops : List DeviceOp) : Prop :=
  ∀ p, (.cudaMalloc p ∈ ops → ops.count (.cudaFree p) = 1) ∧
    (.cudaFree p ∈ ops → .cudaMalloc p ∈ ops)

theorem scratchOps_succ (base k : ℕ) :
    scratchOps base (k + 1) = scratchOps base k ++
      [.cudaMalloc (base + k), .cudaFree (base + k)] := by
  simp [scratchOps, List.range_succ]

theorem count_scratchOps (base k p : ℕ) :
    (scratchOps base k).count (.cudaMalloc p) =
        (if base ≤ p ∧ p < base + k then 1 else 0) ∧
      (scratchOps base k).count (.cudaFree p) =
        (if base ≤ p ∧ p < base + k then 1 else 0) := by
  induction k with
  | zero =>
      rw [if_neg (by omega)]
      exact ⟨rfl, rfl⟩
  | succ k ih =>
      rw [scratchOps_succ, List.count_append, List.count_append, ih.1, ih.2]
      by_cases heq : p = base + k
      · subst heq
        simp
      · have hsame : (base ≤ p ∧ p < base + (k + 1)) ↔
            (base ≤ p ∧ p < base + k) := by omega
        have hne : base + k ≠ p := Ne.symm heq
        simp [hsame, hne]

theorem count_loadedOps (n p : ℕ) :
    ((List.range n).map DeviceOp.cudaMalloc).count (.cudaMalloc p) =
        (if p < n then 1 else 0) ∧
      ((List.range n).map DeviceOp.cudaMalloc).count (.cudaFree p) = 0 := by
  constructor
  · rw [List.count_map_of_injective _ _ (fun a b h => by simpa using h),
      List.count_range]
  · rw [List.count_eq_zero]
    simp

variable {K : Type}

/-- Every subscript of the call is within its array, and its handles are each
freed once. -/
structure Disciplined (result : EStateM.Result Halt (Device K) Unit) : Prop where
  inRange : ∀ device, result ≠ .error .outOfRange device
  freed : HandlesFreedOnce (finalState result).ops

variable [Field K] [LinearOrder K]

theorem searchedDevice_ops
    (cfg : Config) (sqrt : SquareRoot K) (orders : ℕ → ℕ → ThreadOrders K)
    (data : StockPriceMap) :
    (searchedDevice cfg sqrt orders data).ops =
      (List.range cfg.serverStock).map .cudaMalloc ++
        scratchOps cfg.serverStock (pairs cfg.serverStock).length := by
  simp [searchedDevice, printedDevice, Device.afterPairs, loadedDevice]

/-- The windows are never freed, the scratch buffers once. -/
theorem count_searchedDevice
    (cfg : Config) (sqrt : SquareRoot K) (orders : ℕ → ℕ → ThreadOrders K)
    (data : StockPriceMap) (p : ℕ) :
    (searchedDevice cfg sqrt orders data).ops.count (.cudaMalloc p) =
        (if p < cfg.serverStock + (pairs cfg.serverStock).length then 1
          else 0) ∧
      (searchedDevice cfg sqrt orders data).ops.count (.cudaFree p) =
        (if cfg.serverStock ≤ p ∧
            p < cfg.serverStock + (pairs cfg.serverStock).length then 1
          else 0) := by
  have hloaded := count_loadedOps cfg.serverStock p
  have hscratch := count_scratchOps cfg.serverStock
    (pairs cfg.serverStock).length p
  rw [searchedDevice_ops, List.count_append, List.count_append, hloaded.1,
    hloaded.2, hscratch.1, hscratch.2, Nat.zero_add]
  refine ⟨?_, rfl⟩
  split_ifs <;> omega

theorem window_never_freed
    (cfg : Config) (sqrt : SquareRoot K) (orders : ℕ → ℕ → ThreadOrders K)
    (data : StockPriceMap) {p : ℕ} (hp : p < cfg.serverStock) :
    .cudaMalloc p ∈ (searchedDevice cfg sqrt orders data).ops ∧
      .cudaFree p ∉ (searchedDevice cfg sqrt orders data).ops := by
  have hcount := count_searchedDevice cfg sqrt orders data p
  rw [if_pos (by omega), if_neg (by omega)] at hcount
  exact ⟨List.count_pos_iff.mp (by omega), List.count_eq_zero.mp hcount.2⟩

/-- Freeing one pointer over and over does not free the windows. -/
theorem not_handlesFreedOnce_append_replicate
    (cfg : Config) (sqrt : SquareRoot K) (orders : ℕ → ℕ → ThreadOrders K)
    (data : StockPriceMap) {n : ℕ} (hn : n = 0 ∨ 2 ≤ cfg.serverStock) (q : ℕ) :
    ¬ HandlesFreedOnce ((searchedDevice cfg sqrt orders data).ops ++
      List.replicate n (.cudaFree q)) := by
  have hother : ∃ p < cfg.serverStock,
      (List.replicate n (DeviceOp.cudaFree q)).count (.cudaFree p) = 0 := by
    have hpos := cfg.serverStock_pos
    rcases hn with rfl | htwo
    · exact ⟨0, hpos, rfl⟩
    · rcases Nat.eq_zero_or_pos q with hzero | hq
      · exact ⟨1, by omega, by simp [List.count_replicate, hzero]⟩
      · exact ⟨0, hpos, by simp [List.count_replicate, hq.ne']⟩
  obtain ⟨p, hp, hnone⟩ := hother
  obtain ⟨hmalloc, hfree⟩ := window_never_freed cfg sqrt orders data hp
  intro hfreed
  have hone := (hfreed p).1 (List.mem_append_left _ hmalloc)
  rw [List.count_append, hnone, List.count_eq_zero.mpr hfree] at hone
  omega

theorem coefficient_not_disciplined
    (cfg : DeviceConfig) {data : StockPriceMap}
    (hmap : FullMap cfg.toConfig data) (sqrt : SquareRoot K) (junk : Junk K)
    (orders : ℕ → ℕ → ThreadOrders K) :
    ¬ Disciplined (coefficient cfg.toConfig sqrt junk
      (fun i j => (orders i j).launches cfg.toConfig) data
      (Device.initial K)) := by
  intro hdisciplined
  exact hdisciplined.inRange _ (coefficient_apply cfg hmap sqrt junk orders)

/-- On every map for which the server calls `coefficient`, all subscripts are
in range until the result has been printed, and no window has been freed.  Then
`array[loop]` is read.  Whatever the read gives, the handles are not each freed
once: of two windows or more it can be the handle of one at most. -/
theorem coefficient_never_disciplined
    (cfg : DeviceConfig) (sqrt : SquareRoot K) (junk : Junk K)
    (orders : ℕ → ℕ → ThreadOrders K) {payloads : List Payload} {s : Server}
    (hrun : runPayloads cfg.toConfig payloads = .ok () s) {loop_id : Int32}
    {data : StockPriceMap}
    (hcall : (loop_id, data) ∈ coefficientCalls s.trace) :
    ∃ result device, coefficient cfg.toConfig sqrt junk
        (fun i j => (orders i j).launches cfg.toConfig) data
        (Device.initial K) = result ∧
      ¬ Disciplined result ∧
      result = .error .outOfRange device ∧ device.printed.isSome ∧
      ¬ HandlesFreedOnce device.ops ∧
      (∀ p < cfg.serverStock,
        .cudaMalloc p ∈ device.ops ∧ .cudaFree p ∉ device.ops) ∧
      (∀ p, cfg.serverStock ≤ p → .cudaMalloc p ∈ device.ops →
        device.ops.count (.cudaFree p) = 1) ∧
      (2 ≤ cfg.serverStock → ∀ q, ¬ HandlesFreedOnce
        (device.ops ++ List.replicate cfg.serverStock (.cudaFree q))) := by
  have hmap := fullMap_of_call hrun hcall
  have hnever := not_handlesFreedOnce_append_replicate cfg.toConfig sqrt orders
    data (Or.inl rfl) 0
  rw [List.replicate_zero, List.append_nil] at hnever
  refine ⟨_, searchedDevice cfg.toConfig sqrt orders data, rfl,
    coefficient_not_disciplined cfg hmap sqrt junk orders,
    coefficient_apply cfg hmap sqrt junk orders, rfl, hnever, ?_, ?_, ?_⟩
  · exact fun p hp => window_never_freed cfg.toConfig sqrt orders data hp
  · intro p hp hmalloc
    have hcount := count_searchedDevice cfg.toConfig sqrt orders data p
    have hpos := List.count_pos_iff.mpr hmalloc
    rw [hcount.1] at hpos
    have hlt : p < cfg.serverStock + (pairs cfg.serverStock).length := by
      by_contra hge
      rw [if_neg hge] at hpos
      exact absurd hpos (Nat.lt_irrefl 0)
    rw [hcount.2, if_pos ⟨hp, hlt⟩]
  · exact fun htwo q => not_handlesFreedOnce_append_replicate cfg.toConfig sqrt
      orders data (Or.inr htwo) q

end Discipline

/-- All prices are two. -/
def twoQuotes : Quotes := fun _ _ => ⟨2, 2, 2, 2⟩

/-- All prices are zero. -/
def zeroQuotes : Quotes := fun _ _ => ⟨0, 0, 0, 0⟩

theorem windowsAt_pair_mem_calls :
    (0, windowsAt Config.pair twoQuotes 0) ∈ coefficientCalls
      (runState Config.pair ((List.range 1).flatMap
        (loopPayloads Config.pair twoQuotes))).trace :=
  windowsAt_mem_calls Config.pair twoQuotes
    (by decide : Config.pair.priceListSize ≤ 0 + 1) Nat.zero_lt_one
    (by norm_num)

theorem windowsAt_shipped_mem_calls :
    (4095, windowsAt Config.shipped zeroQuotes 4095) ∈ coefficientCalls
      (runState Config.shipped ((List.range 4096).flatMap
        (loopPayloads Config.shipped zeroQuotes))).trace :=
  windowsAt_mem_calls Config.shipped zeroQuotes
    (le_refl (4095 + 1) : Config.shipped.priceListSize ≤ 4095 + 1)
    (by norm_num : 4095 < 4096) (by norm_num)

theorem coefficient_never_disciplined_pair :
    let orders : ℕ → ℕ → ThreadOrders ℝ := fun _ _ => .inOrder ℝ
    ∃ s, runPayloads Config.pair
        ((List.range 1).flatMap (loopPayloads Config.pair twoQuotes)) =
          .ok () s ∧
      ∃ data, (0, data) ∈ coefficientCalls s.trace ∧
        ∃ device, coefficient Config.pair .real ⟨0, 0⟩
            (fun i j => (orders i j).launches Config.pair) data
            (Device.initial ℝ) = .error .outOfRange device ∧
          ¬ HandlesFreedOnce device.ops := by
  intro orders
  have hrun := runPayloads_ok Config.pair
    ((List.range 1).flatMap (loopPayloads Config.pair twoQuotes))
  have hcall := windowsAt_pair_mem_calls
  obtain ⟨_, device, rfl, _, hresult, _, hnever, _⟩ :=
    coefficient_never_disciplined DeviceConfig.pair .real ⟨0, 0⟩ orders hrun
      hcall
  exact ⟨_, hrun, _, hcall, device, hresult, hnever⟩

/-- At the constants of the header, after `PRICE_LIST_SIZE` complete loops. -/
theorem coefficient_reads_behind_array :
    let orders : ℕ → ℕ → ThreadOrders ℝ := fun _ _ => .inOrder ℝ
    ∃ s, runPayloads Config.shipped
        ((List.range 4096).flatMap (loopPayloads Config.shipped zeroQuotes)) =
          .ok () s ∧
      ∃ loop_id data, (loop_id, data) ∈ coefficientCalls s.trace ∧
        ¬ Disciplined (coefficient Config.shipped .real ⟨0, 0⟩
          (fun i j => (orders i j).launches Config.shipped) data
          (Device.initial ℝ)) := by
  intro orders
  have hrun := runPayloads_ok Config.shipped
    ((List.range 4096).flatMap (loopPayloads Config.shipped zeroQuotes))
  have hcall := windowsAt_shipped_mem_calls
  exact ⟨_, hrun, _, _, hcall, coefficient_not_disciplined
    DeviceConfig.shipped (fullMap_of_call hrun hcall) .real ⟨0, 0⟩ orders⟩

end StockFeed
