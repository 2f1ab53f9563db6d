import StockFeed.HistoryMachine

/-!
# Runs in which the first stock never arrives

While the window of id 0 is empty, `allPriceOK` stops there: it answers false
and trims nothing, so every other deque just collects its prices.  These runs
show how far the lazily trimmed windows can drift from `PRICE_LIST_SIZE`.

The second half looks at a deque that has collected `2 ^ 31` prices or more.
Its size no longer fits `int`, reads negative, and keeps the server from ever
becoming ready again.
-/

namespace StockFeed

theorem zero_mem_trackedIds (cfg : Config) : 0 ∈ trackedIds cfg :=
  mem_trackedIds.mpr ⟨0, cfg.serverStock_pos, rfl⟩

theorem zero_le_of_mem_trackedIds
    {cfg : Config} {id : Int32} (hid : id ∈ trackedIds cfg) : 0 ≤ id := by
  obtain ⟨i, hi, rfl⟩ := mem_trackedIds.mp hid
  have hbound := cfg.serverStock_lt
  rw [Int32.le_iff_toInt_le, Int32.toInt_ofNat_of_lt (by omega)]
  simp

/-! ## Not becoming ready -/

theorem Server.deque_store_waiting
    (s : Server) (loop_id : Int32) (st : Stock) (id : Int32) :
    (s.store false loop_id st).deque id = s.deque id ++ closesOf id [st] := by
  rw [Server.deque_store]
  by_cases heq : id = st.id_
  · subst heq
    simp [closesOf]
  · rw [if_neg heq]
    simp [closesOf, Ne.symm heq]

/-- A record step whose queries answer false, before and after storing, keeps
the server waiting.  The deques its queries leave alone just collect. -/
theorem RecordStep.waiting
    {cfg : Config} {loop_id : Int32} {st : Stock} {s s' : Server}
    (hstep : RecordStep cfg loop_id st s s') (hwaiting : s.Waiting)
    {watched : Int32 → Prop} (hwatched : ∀ id, watched id → id ∈ trackedIds cfg)
    (hfirst : ∀ ok s₁, Query cfg s ok s₁ →
      ok = false ∧ ∀ id, watched id → s₁.deque id = s.deque id)
    (hsecond : st.id_ ∈ trackedIds cfg → ∀ ok s₁ s₂, Query cfg s false s₁ →
      Query cfg (s₁.store false loop_id st).announce ok s₂ →
        ok = false ∧ ∀ id, watched id →
          s₂.deque id = (s₁.store false loop_id st).deque id) :
    s'.Waiting ∧ ∀ id, watched id →
      s'.deque id = s.deque id ++ closesOf id [st] := by
  have hkept := hstep.waiting_of_not_ready fun _ => hwaiting
  cases hstep with
  | untracked hnot =>
      refine ⟨hwaiting, ?_⟩
      intro id hid
      have hother : st.id_ ≠ id := by
        rintro rfl
        exact hnot (hwatched _ hid)
      simp [closesOf, hother]
  | @stored ok s₁ _ hquery hcount =>
      obtain ⟨rfl, hfront⟩ := hfirst ok s₁ hquery
      refine ⟨hkept hquery.ready_eq, ?_⟩
      intro id hid
      rw [Server.deque_store_waiting, hfront id hid]
  | @batch ok ok' s₁ s₂ htracked hquery hcount hagain =>
      obtain ⟨rfl, hfront⟩ := hfirst ok s₁ hquery
      obtain ⟨rfl, hback⟩ := hsecond htracked ok' s₁ s₂ hquery hagain
      have hready : (s₂.finish false loop_id).g_ready = false := by
        rw [Server.g_ready_finish]
        exact hagain.ready_eq
      refine ⟨hkept hready, ?_⟩
      intro id hid
      rw [Server.deque_finish, hback id hid, Server.deque_store_waiting,
        hfront id hid]

/-! ## Starving the first stock -/

theorem Query.starved
    {cfg : Config} {s s' : Server} {ok : Bool} (hquery : Query cfg s ok s')
    (hkeys : s.g_priceMap.keys = trackedIds cfg) (hready : s.g_ready = false)
    (hempty : s.deque 0 = []) :
    ok = false ∧ ∀ id ∈ trackedIds cfg, s'.deque id = s.deque id := by
  have hzero : (0 : Int32) ∈ s.g_priceMap.keys := by
    rw [hkeys]
    exact zero_mem_trackedIds cfg
  have hshort : sizeInt (s.deque 0) < cfg.priceListSize := by
    have hpos := cfg.priceListSize_pos
    have hle := sizeInt_le_length (s.deque 0)
    rw [hempty, List.length_nil] at hle
    rw [hempty]
    omega
  cases ok with
  | true =>
      have hlong := (hquery.passed hready rfl 0 hzero).1
      omega
  | false =>
      obtain ⟨stop, _, _, hfront, hback⟩ := hquery.stopped rfl
      have hstop : stop ≤ 0 := by
        by_contra hlt
        have hlong := (hfront 0 hzero (not_le.mp hlt)).1
        omega
      refine ⟨rfl, fun id hid => hback id ?_⟩
      exact hstop.trans (zero_le_of_mem_trackedIds hid)

/-- A waiting server without any price of id 0. -/
structure Server.Starved (cfg : Config) (s : Server) : Prop
    extends s.Waiting where
  sound : s.Sound cfg
  empty : s.deque 0 = []

theorem RecordStep.starved
    {cfg : Config} {loop_id : Int32} {st : Stock} {s s' : Server}
    (hstep : RecordStep cfg loop_id st s s') (hstarved : s.Starved cfg)
    (hne : st.id_ ≠ 0) :
    s'.Starved cfg ∧ ∀ id ∈ trackedIds cfg,
      s'.deque id = s.deque id ++ closesOf id [st] := by
  have hsound := hstarved.sound
  have hzero := zero_mem_trackedIds cfg
  have hnone : closesOf 0 [st] = [] := by simp [closesOf, hne]
  have hfirst : ∀ ok s₁, Query cfg s ok s₁ →
      ok = false ∧ ∀ id, id ∈ trackedIds cfg → s₁.deque id = s.deque id :=
    fun ok s₁ hquery =>
      hquery.starved hsound.keys hstarved.ready hstarved.empty
  have hsecond : st.id_ ∈ trackedIds cfg → ∀ ok s₁ s₂, Query cfg s false s₁ →
      Query cfg (s₁.store false loop_id st).announce ok s₂ →
        ok = false ∧ ∀ id, id ∈ trackedIds cfg →
          s₂.deque id = (s₁.store false loop_id st).deque id := by
    intro hid ok s₁ s₂ hquery hagain
    apply hagain.starved (hquery.store_keys hsound hid loop_id) hquery.ready_eq
    rw [Server.deque_announce, Server.deque_store_waiting,
      (hfirst false s₁ hquery).2 0 hzero, hstarved.empty, hnone]
    rfl
  obtain ⟨hwaiting, hdeque⟩ :=
    hstep.waiting hstarved.toWaiting (fun _ hid => hid) hfirst hsecond
  refine ⟨⟨hwaiting, hstep.sound hsound, ?_⟩, hdeque⟩
  rw [hdeque 0 hzero, hstarved.empty, hnone]
  rfl

theorem recordsState_starved
    {cfg : Config} {records : List Stock} {s : Server}
    (hstarved : s.Starved cfg) (hne : ∀ st ∈ records, st.id_ ≠ 0)
    (loop_id : Int32) :
    (recordsState cfg loop_id s records).Starved cfg ∧
      ∀ id ∈ trackedIds cfg,
        (recordsState cfg loop_id s records).deque id =
          s.deque id ++ closesOf id records := by
  induction records generalizing s with
  | nil =>
      refine ⟨hstarved, ?_⟩
      intro id _
      simp [recordsState, closesOf]
  | cons st rest ih =>
      rw [List.forall_mem_cons] at hne
      have hstep := (recordStep_recordState hstarved.sound loop_id st).starved
        hstarved hne.1
      have hrest := ih hstep.1 hne.2
      refine ⟨hrest.1, ?_⟩
      intro id hid
      have hdeque := hrest.2 id hid
      rw [hstep.2 id hid, List.append_assoc, ← closesOf_append] at hdeque
      exact hdeque

theorem initial_starved (cfg : Config) :
    (Server.initial cfg).Starved cfg :=
  ⟨⟨rfl, rfl, rfl⟩, Server.initial_sound cfg, deque_initial cfg 0⟩

theorem Server.Starved.withLastLoop
    {cfg : Config} {s : Server} (hstarved : s.Starved cfg)
    (loop_id : Int32) :
    ({ s with g_last_loop := loop_id } : Server).Starved cfg :=
  ⟨⟨hstarved.ready, hstarved.done, hstarved.silent⟩,
    hstarved.sound.withLastLoop loop_id, hstarved.empty⟩

theorem runState_starved
    {cfg : Config} {payloads : List Payload}
    (hpayloads : ∀ payload ∈ payloads, payload.loop_id ≠ -1 ∧
      ∀ st ∈ payload.records, st.id_ ≠ 0) :
    (runState cfg payloads).Starved cfg ∧ ∀ id ∈ trackedIds cfg,
      (runState cfg payloads).deque id =
        closesOf id (payloads.flatMap Payload.records) := by
  induction payloads using List.reverseRecOn with
  | nil =>
      refine ⟨initial_starved cfg, ?_⟩
      intro id _
      simp [closesOf]
  | append_singleton payloads payload ih =>
      have hlast := hpayloads payload (by simp)
      have hbefore := ih fun earlier hearlier =>
        hpayloads earlier (by simp [hearlier])
      have hnotDone : (runState cfg payloads).g_last_done_loop ≠
          payload.loop_id := by
        rw [hbefore.1.done]
        exact hlast.1.symm
      rw [runState_concat, payloadState, if_neg hnotDone]
      have hrecords := recordsState_starved
        (hbefore.1.withLastLoop payload.loop_id) hlast.2 payload.loop_id
      refine ⟨hrecords.1, ?_⟩
      intro id hid
      have hdeque := hrecords.2 id hid
      have hold : ({ runState cfg payloads with
          g_last_loop := payload.loop_id } : Server).deque id =
            closesOf id (payloads.flatMap Payload.records) := hbefore.2 id hid
      rw [hold, ← closesOf_append] at hdeque
      simpa using hdeque

/-! ## Payloads filled with one stock -/

def fill (rounds group : ℕ) (i : ℕ) : List Payload :=
  List.replicate rounds
    ⟨0, List.replicate group ⟨Int32.ofNat i, 100, 95, 110, 90⟩⟩

theorem fill_succ (rounds group i : ℕ) :
    fill (rounds + 1) (group + 1) i = fill rounds (group + 1) i ++
      [⟨0, List.replicate group ⟨Int32.ofNat i, 100, 95, 110, 90⟩ ++
        [⟨Int32.ofNat i, 100, 95, 110, 90⟩]⟩] := by
  unfold fill
  rw [List.replicate_succ', List.replicate_succ']

theorem length_flatMap_fill (rounds group i : ℕ) :
    ((fill rounds group i).flatMap Payload.records).length =
      rounds * group := by
  simp [fill, List.length_flatMap]

theorem length_closesOf_fill (rounds group i : ℕ) :
    (closesOf (Int32.ofNat i)
      ((fill rounds group i).flatMap Payload.records)).length =
        rounds * group := by
  have hfilter : ((fill rounds group i).flatMap Payload.records).filter
      (fun st => st.id_ = Int32.ofNat i) =
        (fill rounds group i).flatMap Payload.records := by
    rw [List.filter_eq_self]
    intro st hst
    simp only [fill, List.mem_flatMap, List.mem_replicate] at hst
    rcases hst with ⟨payload, ⟨_, rfl⟩, hst⟩
    rw [List.mem_replicate] at hst
    rw [hst.2]
    simp
  unfold closesOf
  rw [hfilter, List.length_map, length_flatMap_fill]

theorem fill_loop_id
    {rounds group i : ℕ} {payload : Payload}
    (hmem : payload ∈ fill rounds group i) : payload.loop_id = 0 := by
  rw [fill, List.mem_replicate] at hmem
  rw [hmem.2]

theorem fill_id
    {rounds group i : ℕ} {payload : Payload} {st : Stock}
    (hmem : payload ∈ fill rounds group i) (hst : st ∈ payload.records) :
    st.id_ = Int32.ofNat i := by
  rw [fill, List.mem_replicate] at hmem
  rw [hmem.2, List.mem_replicate] at hst
  rw [hst.2]

theorem fill_length
    {rounds group i : ℕ} {payload : Payload}
    (hmem : payload ∈ fill rounds group i) :
    payload.records.length = group := by
  rw [fill, List.mem_replicate] at hmem
  rw [hmem.2, List.length_replicate]

theorem runState_fill_starved (cfg : Config) (rounds group : ℕ) :
    (runState cfg (fill rounds group 1)).Starved cfg ∧
      ∀ id ∈ trackedIds cfg, (runState cfg (fill rounds group 1)).deque id =
        closesOf id ((fill rounds group 1).flatMap Payload.records) := by
  apply runState_starved
  intro payload hmem
  refine ⟨?_, ?_⟩
  · rw [fill_loop_id hmem]
    decide
  · intro st hst
    rw [fill_id hmem hst]
    decide

theorem length_deque_fill
    {cfg : Config} (htwo : 1 < cfg.serverStock) (rounds group : ℕ) :
    ((runState cfg (fill rounds group 1)).deque (Int32.ofNat 1)).length =
      rounds * group := by
  have hone : Int32.ofNat 1 ∈ trackedIds cfg :=
    mem_trackedIds.mpr ⟨1, htwo, rfl⟩
  rw [(runState_fill_starved cfg rounds group).2 _ hone, length_closesOf_fill]

/-! ## A deque longer than `int` can count -/

theorem sizeInt_neg
    {prices : List Int32} (hlow : 2 ^ 31 ≤ prices.length)
    (hhigh : prices.length < 2 ^ 32) : sizeInt prices < 0 := by
  unfold sizeInt
  rw [Int.bmod_def]
  split <;> omega

/-- A waiting server whose deque of `id` has outgrown `int`. -/
structure Server.Stuck (cfg : Config) (id : Int32) (s : Server) : Prop
    extends s.Waiting where
  sound : s.Sound cfg
  low : 2 ^ 31 ≤ (s.deque id).length
  high : (s.deque id).length < 2 ^ 32

theorem Query.stuck
    {cfg : Config} {s s' : Server} {ok : Bool} {id : Int32}
    (hquery : Query cfg s ok s')
    (hkeys : s.g_priceMap.keys = trackedIds cfg) (hready : s.g_ready = false)
    (hid : id ∈ trackedIds cfg) (hlow : 2 ^ 31 ≤ (s.deque id).length)
    (hhigh : (s.deque id).length < 2 ^ 32) :
    ok = false ∧ s'.deque id = s.deque id := by
  have hneg := sizeInt_neg hlow hhigh
  have hkey : id ∈ s.g_priceMap.keys := by
    rw [hkeys]
    exact hid
  constructor
  · cases ok with
    | true =>
        have hlong := (hquery.passed hready rfl id hkey).1
        omega
    | false => rfl
  · rcases hquery.kept id with heq | ⟨hlong, _⟩
    · exact heq
    · omega

theorem RecordStep.stuck
    {cfg : Config} {loop_id : Int32} {st : Stock} {s s' : Server} {id : Int32}
    (hstep : RecordStep cfg loop_id st s s') (hid : id ∈ trackedIds cfg)
    (hstuck : s.Stuck cfg id) (hroom : (s.deque id).length + 1 < 2 ^ 32) :
    s'.Stuck cfg id ∧ (s'.deque id).length ≤ (s.deque id).length + 1 := by
  have hsound := hstuck.sound
  have hlow := hstuck.low
  have hsingle : (closesOf id [st]).length ≤ 1 := by
    rw [closesOf, List.length_map]
    exact List.length_filter_le _ _
  have hfirst : ∀ ok s₁, Query cfg s ok s₁ →
      ok = false ∧ ∀ i, i = id → s₁.deque i = s.deque i := by
    intro ok s₁ hquery
    have hkept := hquery.stuck hsound.keys hstuck.ready hid hlow hstuck.high
    exact ⟨hkept.1, fun i hi => hi ▸ hkept.2⟩
  have hsecond : st.id_ ∈ trackedIds cfg → ∀ ok s₁ s₂, Query cfg s false s₁ →
      Query cfg (s₁.store false loop_id st).announce ok s₂ →
        ok = false ∧ ∀ i, i = id →
          s₂.deque i = (s₁.store false loop_id st).deque i := by
    intro htracked ok s₁ s₂ hquery hagain
    have hlength : ((s₁.store false loop_id st).announce.deque id).length =
        (s.deque id).length + (closesOf id [st]).length := by
      rw [Server.deque_announce, Server.deque_store_waiting,
        (hfirst false s₁ hquery).2 id rfl, List.length_append]
    have hkept := hagain.stuck (hquery.store_keys hsound htracked loop_id)
      hquery.ready_eq hid (by omega) (by omega)
    exact ⟨hkept.1, fun i hi => hi ▸ hkept.2⟩
  have hwatched : ∀ i, i = id → i ∈ trackedIds cfg := by
    rintro i rfl
    exact hid
  obtain ⟨hwaiting, hdeque⟩ :=
    hstep.waiting hstuck.toWaiting hwatched hfirst hsecond
  have hlength : (s'.deque id).length =
      (s.deque id).length + (closesOf id [st]).length := by
    rw [hdeque id rfl, List.length_append]
  exact ⟨⟨hwaiting, hstep.sound hsound, by omega, by omega⟩, by omega⟩

theorem recordsState_stuck
    {cfg : Config} {records : List Stock} {s : Server} {id : Int32}
    (hid : id ∈ trackedIds cfg) (hstuck : s.Stuck cfg id)
    (hroom : (s.deque id).length + records.length < 2 ^ 32) (loop_id : Int32) :
    (recordsState cfg loop_id s records).Stuck cfg id ∧
      ((recordsState cfg loop_id s records).deque id).length ≤
        (s.deque id).length + records.length := by
  induction records generalizing s with
  | nil => exact ⟨hstuck, le_refl _⟩
  | cons st rest ih =>
      rw [List.length_cons] at hroom
      have hstep := (recordStep_recordState hstuck.sound loop_id st).stuck
        hid hstuck (by omega)
      have hrest := ih hstep.1 (by omega)
      refine ⟨hrest.1, hrest.2.trans ?_⟩
      rw [List.length_cons]
      omega

/-- Once stuck, the server stays silent for the next two billion records. -/
theorem foldl_payloadState_stuck
    {cfg : Config} {payloads : List Payload} {s : Server} {id : Int32}
    (hid : id ∈ trackedIds cfg) (hstuck : s.Stuck cfg id)
    (hroom : (s.deque id).length +
      (payloads.flatMap Payload.records).length < 2 ^ 32) :
    (payloads.foldl (payloadState cfg) s).Stuck cfg id := by
  induction payloads generalizing s with
  | nil => exact hstuck
  | cons payload rest ih =>
      rw [List.flatMap_cons, List.length_append] at hroom
      rw [List.foldl_cons]
      unfold payloadState
      split_ifs with hdone
      · exact ih hstuck (by omega)
      · have hlast : ({ s with g_last_loop := payload.loop_id } :
            Server).Stuck cfg id :=
          ⟨⟨hstuck.ready, hstuck.done, hstuck.silent⟩,
            hstuck.sound.withLastLoop _, hstuck.low, hstuck.high⟩
        have hdeque : ({ s with g_last_loop := payload.loop_id } :
            Server).deque id = s.deque id := rfl
        have hroom' : (({ s with g_last_loop := payload.loop_id } :
            Server).deque id).length + payload.records.length < 2 ^ 32 := by
          rw [hdeque]
          omega
        have hrecords := recordsState_stuck hid hlast hroom' payload.loop_id
        rw [hdeque] at hrecords
        exact ih hrecords.1 (by omega)

theorem runState_fill_stuck
    {cfg : Config} {rounds group : ℕ} (htwo : 1 < cfg.serverStock)
    (hlow : 2 ^ 31 ≤ rounds * group) (hhigh : rounds * group < 2 ^ 32) :
    (runState cfg (fill rounds group 1)).Stuck cfg (Int32.ofNat 1) := by
  have hstarved := (runState_fill_starved cfg rounds group).1
  have hlength := length_deque_fill htwo rounds group
  exact ⟨hstarved.toWaiting, hstarved.sound, by omega, by omega⟩

end StockFeed
