import StockFeed.BatchRun
import StockFeed.Client
import StockFeed.ReplayLog

/-!
# End to end without faults

The client sends loop after loop, every datagram arrives once, and only the
datagrams of one loop may overtake each other.  Each loop is then one batch:
its last tracked record closes it, whatever the order was.  From loop
`PRICE_LIST_SIZE - 1` on every batch ends with a call of `coefficient` on the
prices of the last `PRICE_LIST_SIZE` loops; the records which follow in that
loop are ignored by the filter or not tracked.
-/

namespace StockFeed

open StateAction

/-! ## Tracked records of a loop -/

theorem range_mul (n group : ℕ) :
    (List.range n).flatMap (fun i =>
        (List.range group).map fun j => i * group + j) =
      List.range (n * group) := by
  induction n with
  | zero => simp
  | succ n ih =>
      rw [List.range_succ, List.flatMap_append, ih, List.flatMap_singleton,
        Nat.succ_mul, List.range_add]

theorem flatMap_loopPayloads (cfg : Config) (quotes : Quotes) (lc : ℕ) :
    (loopPayloads cfg quotes lc).flatMap Payload.records =
      (List.range (cfg.groupCount * cfg.groupStock)).map
        (clientStock quotes lc) := by
  rw [loopPayloads_eq, ← range_mul, List.map_flatMap, List.flatMap_map]
  apply List.flatMap_congr
  intro i _
  simp [clientPayload]

theorem ofNat_mem_trackedIds_iff
    (cfg : Config) {i : ℕ} (hi : i < 2 ^ 31) :
    Int32.ofNat i ∈ trackedIds cfg ↔ i < cfg.serverStock := by
  have hbound := cfg.serverStock_lt
  rw [mem_trackedIds]
  constructor
  · intro hmem
    rcases hmem with ⟨k, hk, heq⟩
    have hint := congrArg Int32.toInt heq
    rw [Int32.toInt_ofNat_of_lt (by omega), Int32.toInt_ofNat_of_lt hi] at hint
    omega
  · intro hlt
    exact ⟨i, hlt, rfl⟩

theorem tracked_loopPayloads (cfg : Config) (quotes : Quotes) (lc : ℕ) :
    HistoryMachine.tracked cfg
        ((loopPayloads cfg quotes lc).flatMap Payload.records) =
      (List.range cfg.serverStock).map (clientStock quotes lc) := by
  have hsent : cfg.serverStock ≤ cfg.groupCount * cfg.groupStock :=
    cfg.tracked_sent
  have hcount := cfg.groupCount_mul_le
  have hbound := cfg.stockCount_lt
  obtain ⟨more, hmore⟩ := Nat.exists_eq_add_of_le hsent
  have hfilter : (List.range (cfg.serverStock + more)).filter
      (fun i => Int32.ofNat i ∈ trackedIds cfg) =
        List.range cfg.serverStock := by
    rw [List.range_add, List.filter_append]
    have hfirst : (List.range cfg.serverStock).filter
        (fun i => Int32.ofNat i ∈ trackedIds cfg) =
          List.range cfg.serverStock := by
      rw [List.filter_eq_self]
      intro i hi
      rw [List.mem_range] at hi
      simpa using (ofNat_mem_trackedIds_iff cfg (by omega)).mpr hi
    have hsecond : ((List.range more).map (cfg.serverStock + ·)).filter
        (fun i => Int32.ofNat i ∈ trackedIds cfg) = [] := by
      rw [List.filter_eq_nil_iff]
      intro i hi
      obtain ⟨j, hj, rfl⟩ := List.mem_map.mp hi
      rw [List.mem_range] at hj
      have hiff := ofNat_mem_trackedIds_iff cfg
        (by omega : cfg.serverStock + j < 2 ^ 31)
      have hnot : ¬ cfg.serverStock + j < cfg.serverStock := by omega
      simpa using hiff.not.mpr hnot
    rw [hfirst, hsecond, List.append_nil]
  rw [flatMap_loopPayloads, hmore, HistoryMachine.tracked, List.filter_map]
  exact congrArg (List.map (clientStock quotes lc)) hfilter

/-- Tracked records of a loop, in the order in which its datagrams arrive. -/
def trackedRecords (cfg : Config) (delivered : List Payload) : List Stock :=
  HistoryMachine.tracked cfg (delivered.flatMap Payload.records)

section Delivered

variable {cfg : Config} {quotes : Quotes} {lc : ℕ} {delivered : List Payload}
  (hperm : delivered.Perm (loopPayloads cfg quotes lc))

include hperm

theorem trackedRecords_perm :
    (trackedRecords cfg delivered).Perm
      ((List.range cfg.serverStock).map (clientStock quotes lc)) := by
  rw [← tracked_loopPayloads, trackedRecords]
  exact (hperm.flatMap_right Payload.records).filter _

theorem length_trackedRecords :
    (trackedRecords cfg delivered).length = cfg.serverStock := by
  rw [(trackedRecords_perm hperm).length_eq, List.length_map,
    List.length_range]

theorem trackedRecords_distinct :
    HistoryMachine.Distinct cfg (trackedRecords cfg delivered) := by
  constructor
  · intro st hst
    exact HistoryMachine.mem_trackedIds_of_mem_tracked hst
  · have hids := (trackedRecords_perm hperm).map Stock.id_
    have hnodup : (trackedIds cfg).Nodup := (trackedIds_sorted cfg).imp ne_of_lt
    rw [hids.nodup_iff, List.map_map]
    exact hnodup

theorem closesOf_trackedRecords {i : ℕ} (hi : i < cfg.serverStock) :
    closesOf (Int32.ofNat i) (trackedRecords cfg delivered) =
      [(quotes lc i).closePrice] := by
  have hmem : clientStock quotes lc i ∈ trackedRecords cfg delivered := by
    rw [(trackedRecords_perm hperm).mem_iff]
    exact List.mem_map.mpr ⟨i, List.mem_range.mpr hi, rfl⟩
  exact (trackedRecords_distinct hperm).closesOf_eq hmem

end Delivered

/-! ## The run of the history machine -/

/-- The prices of the last `PRICE_LIST_SIZE` loops up to `lc`. -/
def windowsAt (cfg : Config) (quotes : Quotes) (lc : ℕ) : StockPriceMap where
  entries := (List.range cfg.serverStock).map fun i =>
    (Int32.ofNat i, (List.range cfg.priceListSize).map fun k =>
      (quotes (lc + 1 - cfg.priceListSize + k) i).closePrice)
  sorted := by
    have hsorted := trackedIds_sorted cfg
    rw [trackedIds] at hsorted
    simpa [Function.comp_def] using hsorted

/-- What loop `lc` adds to the trace. -/
def loopTrace (cfg : Config) (quotes : Quotes) (order : ℕ → List Payload)
    (lc : ℕ) : List Action :=
  (trackedRecords cfg (order lc)).map (.applied (Int32.ofNat lc)) ++
    .serverGetAll ::
      if cfg.priceListSize ≤ lc + 1 then
        [.coefficient (Int32.ofNat lc) (windowsAt cfg quotes lc)]
      else []

/-- The machine after `n` complete loops. -/
structure AfterLoops (cfg : Config) (quotes : Quotes)
    (order : ℕ → List Payload) (n : ℕ) (machine : HistoryMachine) :
    Prop where
  level : HistoryMachine.Level cfg n machine
  history : ∀ i < cfg.serverStock, machine.history (Int32.ofNat i) =
    (List.range n).map fun lc => (quotes lc i).closePrice
  lastDone : machine.lastDone =
    if cfg.priceListSize ≤ n then Int32.ofNat (n - 1) else -1
  trace : machine.trace = (List.range n).flatMap (loopTrace cfg quotes order)

theorem initial_afterLoops
    (cfg : Config) (quotes : Quotes) (order : ℕ → List Payload) :
    AfterLoops cfg quotes order 0 HistoryMachine.initial where
  level := HistoryMachine.initial_level cfg
  history := fun _ _ => rfl
  lastDone := by
    rw [if_neg (Nat.not_le.mpr cfg.priceListSize_pos)]
    rfl
  trace := rfl

theorem rtake_map_range (f : ℕ → Int32) {n size : ℕ} (hle : size ≤ n) :
    ((List.range n).map f).rtake size =
      (List.range size).map fun k => f (n - size + k) := by
  apply List.ext_getElem
  · simp [List.rtake]
    omega
  · intro k hk hk'
    simp [List.rtake]

theorem windows_eq_windowsAt
    {cfg : Config} {quotes : Quotes} {lc : ℕ}
    {history : Int32 → List Int32}
    (hhistory : ∀ i < cfg.serverStock, history (Int32.ofNat i) =
      (List.range (lc + 1)).map fun l => (quotes l i).closePrice)
    (hlong : cfg.priceListSize ≤ lc + 1) :
    HistoryMachine.windows cfg history = windowsAt cfg quotes lc := by
  simp only [HistoryMachine.windows, windowsAt, trackedIds, List.map_map,
    OrderedMap.mk.injEq]
  apply List.map_congr_left
  intro i hi
  rw [List.mem_range] at hi
  simp only [Function.comp_apply]
  rw [hhistory i hi, rtake_map_range _ hlong]

theorem ofNat_ne_lastDone
    {cfg : Config} {n : ℕ} (hn : n < 2 ^ 31) :
    (if cfg.priceListSize ≤ n then Int32.ofNat (n - 1) else -1) ≠
      Int32.ofNat n := by
  intro heq
  have hint := congrArg Int32.toInt heq
  have hpos := cfg.priceListSize_pos
  rw [Int32.toInt_ofNat_of_lt hn] at hint
  split_ifs at hint
  · rw [Int32.toInt_ofNat_of_lt (by omega)] at hint
    omega
  · have hminus : (-1 : Int32).toInt = -1 := rfl
    rw [hminus] at hint
    omega

theorem loopPayloads_loop_id
    {cfg : Config} {quotes : Quotes} {lc : ℕ} {p : Payload}
    (hp : p ∈ loopPayloads cfg quotes lc) : p.loop_id = Int32.ofNat lc := by
  rw [loopPayloads_eq] at hp
  obtain ⟨i, _, rfl⟩ := List.mem_map.mp hp
  rfl

/-- One more loop, in any order of its datagrams. -/
theorem AfterLoops.loop
    {cfg : Config} {quotes : Quotes} {order : ℕ → List Payload} {n : ℕ}
    {machine : HistoryMachine} (hafter : AfterLoops cfg quotes order n machine)
    (hn : n < 2 ^ 31)
    (hperm : (order n).Perm (loopPayloads cfg quotes n)) :
    HistoryMachine.RunRoom cfg machine (order n) ∧
      AfterLoops cfg quotes order (n + 1)
        ((order n).foldl (HistoryMachine.payload cfg) machine) := by
  have hlast : machine.lastDone ≠ Int32.ofNat n := by
    rw [hafter.lastDone]
    exact ofNat_ne_lastDone hn
  have hloop : ∀ p ∈ order n, p.loop_id = Int32.ofNat n := by
    intro p hp
    exact loopPayloads_loop_id (hperm.mem_iff.mp hp)
  have hdistinct := trackedRecords_distinct hperm
  have hfull := length_trackedRecords hperm
  have hempty : ([] : List Stock).length < cfg.serverStock :=
    cfg.serverStock_pos
  have hroom := hafter.level.runRoom_during hloop hlast hempty hdistinct
  have hrun := HistoryMachine.foldl_payload_during hafter.level.applied hloop
    hlast hempty hdistinct.length_le
  rw [HistoryMachine.during_nil] at hroom hrun
  refine ⟨hroom, ?_⟩
  have hend : (order n).foldl (HistoryMachine.payload cfg) machine =
      (machine.during (Int32.ofNat n) (trackedRecords cfg (order n))).endBatch
        cfg (Int32.ofNat n) := by
    rw [hrun, HistoryMachine.joined]
    exact if_pos hfull
  have hlevel := hafter.level.endBatch hdistinct hfull (Int32.ofNat n)
  have hhistory : ∀ i < cfg.serverStock,
      (machine.during (Int32.ofNat n)
        (trackedRecords cfg (order n))).history (Int32.ofNat i) =
          (List.range (n + 1)).map fun lc => (quotes lc i).closePrice := by
    intro i hi
    rw [HistoryMachine.history_during, hafter.history i hi,
      closesOf_trackedRecords hperm hi, List.range_succ, List.map_append]
    rfl
  have hcomplete := hlevel.complete_iff
  rw [HistoryMachine.history_endBatch] at hcomplete
  have htrace : (machine.during (Int32.ofNat n)
      (trackedRecords cfg (order n))).trace =
        (List.range n).flatMap (loopTrace cfg quotes order) ++
          (trackedRecords cfg (order n)).map (.applied (Int32.ofNat n)) :=
    congrArg (· ++ _) hafter.trace
  rw [hend]
  refine ⟨hlevel, ?_, ?_, ?_⟩
  · intro i hi
    rw [HistoryMachine.history_endBatch]
    exact hhistory i hi
  · rw [HistoryMachine.endBatch]
    by_cases hlong : cfg.priceListSize ≤ n + 1
    · rw [if_pos (hcomplete.mpr hlong), if_pos hlong]
      rfl
    · rw [if_neg (mt hcomplete.mp hlong), if_neg hlong]
      change machine.lastDone = -1
      rw [hafter.lastDone, if_neg (by omega)]
  · rw [HistoryMachine.endBatch, List.range_succ, List.flatMap_append,
      List.flatMap_singleton, loopTrace]
    by_cases hlong : cfg.priceListSize ≤ n + 1
    · rw [if_pos (hcomplete.mpr hlong), if_pos hlong, htrace,
        windows_eq_windowsAt hhistory hlong, List.append_assoc]
    · rw [if_neg (mt hcomplete.mp hlong), if_neg hlong, htrace,
        List.append_assoc]

theorem afterLoops_run
    {cfg : Config} {quotes : Quotes} {order : ℕ → List Payload} {n : ℕ}
    (hn : n ≤ 2 ^ 31)
    (horder : ∀ lc < n, (order lc).Perm (loopPayloads cfg quotes lc)) :
    HistoryMachine.RunRoom cfg HistoryMachine.initial
        ((List.range n).flatMap order) ∧
      AfterLoops cfg quotes order n
        (((List.range n).flatMap order).foldl (HistoryMachine.payload cfg)
          HistoryMachine.initial) := by
  induction n with
  | zero => exact ⟨trivial, initial_afterLoops cfg quotes order⟩
  | succ n ih =>
      have hbefore := ih (by omega) fun lc hlc => horder lc (by omega)
      have hloop := hbefore.2.loop (by omega) (horder n (by omega))
      rw [List.range_succ, List.flatMap_append, List.flatMap_singleton,
        List.foldl_append]
      exact ⟨HistoryMachine.runRoom_append hbefore.1 hloop.1, hloop.2⟩

/-! ## The run of the server -/

theorem forM_handleBlock_follows
    {cfg : Config} {s : Server} {machine : HistoryMachine}
    {payloads : List Payload} (hfollows : Follows cfg s machine)
    (hroom : HistoryMachine.RunRoom cfg machine payloads)
    (hgroups : ∀ p ∈ payloads, p.records.length = cfg.groupStock) :
    ∃ s', forM (payloads.map Payload.bytes) (handleBlock cfg) s = .ok () s' ∧
      Follows cfg s' (payloads.foldl (HistoryMachine.payload cfg) machine) := by
  induction payloads generalizing s machine with
  | nil => exact ⟨s, rfl, hfollows⟩
  | cons p rest ih =>
      rw [List.forall_mem_cons] at hgroups
      have hlength : p.bytes.length = cfg.payloadSize := by
        rw [Payload.length_bytes, hgroups.1]
        rfl
      have hread := readDatagram_bytes_append p hgroups.1 []
      rw [List.append_nil] at hread
      have hblock := handleBlock_ok hfollows.sound hlength hread
      have hnext := payloadState_follows
        (hfollows.relog (s.g_pFile ++ p.bytes) s.g_last_loop) hroom.1
      obtain ⟨s', hrun, hlast⟩ := ih hnext hroom.2 hgroups.2
      refine ⟨s', ?_, hlast⟩
      rw [List.map_cons, forM_cons_apply, hblock]
      exact hrun

theorem coefficientCalls_loopTrace
    (cfg : Config) (quotes : Quotes) (order : ℕ → List Payload) (lc : ℕ) :
    coefficientCalls (loopTrace cfg quotes order lc) =
      if cfg.priceListSize ≤ lc + 1 then
        [(Int32.ofNat lc, windowsAt cfg quotes lc)]
      else [] := by
  have happlied : ∀ sts : List Stock,
      coefficientCalls (sts.map (.applied (Int32.ofNat lc))) = [] := by
    intro sts
    simp [coefficientCalls, List.filterMap_map]
  rw [loopTrace, coefficientCalls_append, happlied]
  split_ifs <;> rfl

theorem coefficientCalls_flatMap_loopTrace
    (cfg : Config) (quotes : Quotes) (order : ℕ → List Payload) (n : ℕ) :
    coefficientCalls ((List.range n).flatMap (loopTrace cfg quotes order)) =
      ((List.range n).filter fun lc => cfg.priceListSize ≤ lc + 1).map
        fun lc => (Int32.ofNat lc, windowsAt cfg quotes lc) := by
  induction n with
  | zero => rfl
  | succ n ih =>
      rw [List.range_succ, List.flatMap_append, List.flatMap_singleton,
        coefficientCalls_append, ih, coefficientCalls_loopTrace,
        List.filter_append, List.map_append]
      by_cases hlong : cfg.priceListSize ≤ n + 1
      · simp [hlong]
      · simp [hlong]

theorem runState_loops
    {cfg : Config} (quotes : Quotes) {n : ℕ} (hn : n ≤ 2 ^ 31) :
    ∃ machine, Follows cfg
        (runState cfg ((List.range n).flatMap (loopPayloads cfg quotes)))
        machine ∧
      AfterLoops cfg quotes (loopPayloads cfg quotes) n machine := by
  have hloops := afterLoops_run hn
    fun lc _ => List.Perm.refl (loopPayloads cfg quotes lc)
  exact ⟨_, foldl_payloadState_follows (initial_follows cfg) hloops.1,
    hloops.2⟩

theorem windowsAt_mem_calls
    (cfg : Config) (quotes : Quotes) {lc n : ℕ}
    (hlong : cfg.priceListSize ≤ lc + 1) (hlc : lc < n) (hn : n ≤ 2 ^ 31) :
    (Int32.ofNat lc, windowsAt cfg quotes lc) ∈ coefficientCalls
      (runState cfg ((List.range n).flatMap (loopPayloads cfg quotes))).trace := by
  obtain ⟨machine, hfollows, hafter⟩ := runState_loops quotes hn
  rw [hfollows.simulates.trace, hafter.trace,
    coefficientCalls_flatMap_loopTrace]
  refine List.mem_map.mpr ⟨lc, List.mem_filter.mpr ⟨?_, ?_⟩, rfl⟩
  · exact List.mem_range.mpr hlc
  · exact decide_eq_true hlong

theorem find?_windowsAt
    (cfg : Config) (quotes : Quotes) (lc : ℕ) {i : ℕ}
    (hi : i < cfg.serverStock) :
    (windowsAt cfg quotes lc).find? (Int32.ofNat i) =
      some ((List.range cfg.priceListSize).map fun k =>
        (quotes (lc + 1 - cfg.priceListSize + k) i).closePrice) := by
  rw [OrderedMap.find?_eq_some_iff]
  exact List.mem_map.mpr ⟨i, List.mem_range.mpr hi, rfl⟩

/-- Every datagram arrives once, loops in order, the datagrams of a loop in any
order: the trace of each loop ends its batch at its last tracked record, and
the calls of `coefficient` are the same for all orders. -/
theorem fault_free_run
    (cfg : Config) (quotes : Quotes) (n : ℕ) (hn : n ≤ 2 ^ 31)
    (order : ℕ → List Payload)
    (horder : ∀ lc < n, (order lc).Perm (loopPayloads cfg quotes lc))
    (buffer : List UInt8) (hbuffer : buffer.length = cfg.payloadSize)
    (frames : List CapturedFrame)
    (hframes : acceptedPayloads frames =
      (List.range n).flatMap fun lc => (order lc).map fun p =>
        buildDatagram buffer p.loop_id p.records) :
    ∃ s, runFrames cfg (frames.map CapturedFrame.toFrame) = .ok () s ∧
      s.trace = (List.range n).flatMap (loopTrace cfg quotes order) ∧
      coefficientCalls s.trace =
        ((List.range n).filter fun lc => cfg.priceListSize ≤ lc + 1).map
          fun lc => (Int32.ofNat lc, windowsAt cfg quotes lc) := by
  have hmachine := afterLoops_run hn horder
  have hgroups : ∀ p ∈ (List.range n).flatMap order,
      p.records.length = cfg.groupStock := by
    intro p hp
    obtain ⟨lc, hlc, hp⟩ := List.mem_flatMap.mp hp
    rw [(horder lc (List.mem_range.mp hlc)).mem_iff, loopPayloads_eq] at hp
    obtain ⟨i, _, rfl⟩ := List.mem_map.mp hp
    simp [clientPayload]
  have hbytes : acceptedPayloads frames =
      ((List.range n).flatMap order).map Payload.bytes := by
    rw [hframes, List.map_flatMap]
    apply List.flatMap_congr
    intro lc hlc
    apply List.map_congr_left
    intro p hp
    exact buildDatagram_eq_bytes p hbuffer
      (hgroups p (List.mem_flatMap.mpr ⟨lc, hlc, hp⟩))
  rcases forM_handleBlock_follows (initial_follows cfg) hmachine.1 hgroups with
    ⟨s, hrun, hfollows⟩
  have htrace : s.trace =
      (List.range n).flatMap (loopTrace cfg quotes order) :=
    hfollows.simulates.trace.trans hmachine.2.trace
  refine ⟨s, ?_, htrace, ?_⟩
  · rw [runFrames, forM_deliver_captured, hbytes]
    exact hrun
  · rw [htrace]
    exact coefficientCalls_flatMap_loopTrace cfg quotes order n

def captureAll (blocks : List (List UInt8))
    (hfits : ∀ block ∈ blocks, block.length < 2 ^ 31) : List CapturedFrame :=
  blocks.pmap loopbackFrame hfits

theorem acceptedPayloads_captureAll
    {blocks : List (List UInt8)}
    (hfits : ∀ block ∈ blocks, block.length < 2 ^ 31) :
    acceptedPayloads (captureAll blocks hfits) = blocks := by
  have haccepted : (captureAll blocks hfits).filter
      (fun frame => frame.Accepted) = captureAll blocks hfits := by
    rw [List.filter_eq_self]
    intro frame hframe
    obtain ⟨block, _, rfl⟩ := List.mem_pmap.mp hframe
    simpa using loopbackFrame_accepted _
  rw [acceptedPayloads, haccepted, captureAll, List.map_pmap]
  simp only [loopbackFrame_payload]
  exact List.pmap_eq_self.mpr fun _ _ => rfl

theorem length_udpClient
    {cfg : Config} {quotes : Quotes} {buffer : List UInt8}
    (hbuffer : buffer.length = cfg.payloadSize) (n : ℕ) :
    ∀ block ∈ udpClient cfg quotes buffer n, block.length < 2 ^ 31 := by
  intro block hblock
  obtain ⟨lc, _, hblock⟩ := List.mem_flatMap.mp hblock
  obtain ⟨p, hp, rfl⟩ := List.mem_map.mp hblock
  rw [loopPayloads_eq] at hp
  obtain ⟨i, _, rfl⟩ := List.mem_map.mp hp
  have hrecords : (clientPayload cfg quotes lc i).records.length =
      cfg.groupStock := by
    simp [clientPayload]
  rw [buildDatagram_eq_bytes _ hbuffer hrecords, Payload.length_bytes,
    hrecords]
  exact cfg.payloadSize_lt

theorem fault_free_run_constant :
    let cfg := Config.shipped
    let quotes : Quotes := fun _ _ => ⟨100, 95, 110, 90⟩
    let buffer : List UInt8 := List.replicate 404 0
    ∃ hfits : ∀ block ∈ udpClient cfg quotes buffer 5000,
        block.length < 2 ^ 31,
      ∃ s, runFrames cfg ((captureAll (udpClient cfg quotes buffer 5000)
          hfits).map CapturedFrame.toFrame) = .ok () s ∧
        s.trace = (List.range 5000).flatMap
          (loopTrace cfg quotes (loopPayloads cfg quotes)) := by
  intro cfg quotes buffer
  have hbuffer : buffer.length = cfg.payloadSize := by
    rw [List.length_replicate]
    rfl
  have hfits : ∀ block ∈ udpClient cfg quotes buffer 5000,
      block.length < 2 ^ 31 := length_udpClient hbuffer 5000
  have hrun := fault_free_run cfg quotes 5000 (by norm_num)
    (loopPayloads cfg quotes) (fun _ _ => List.Perm.refl _) buffer hbuffer
    (captureAll (udpClient cfg quotes buffer 5000) hfits)
    (acceptedPayloads_captureAll hfits)
  rcases hrun with ⟨s, hs, htrace, _⟩
  exact ⟨hfits, s, hs, htrace⟩

end StockFeed
