import StockFeed.ServerModel
import Mathlib.Tactic

/-!
# What one record can do to the server

`allPriceOK` looks like a query and trims windows on the way.  This file says
once what a call can change (`Query`), and from that everything one turn of
the decode loop can do: nothing, or store the price, and at the end of a batch
announce it, ask again and possibly call `coefficient`.  All invariants are
derived from `processRecord_untracked` and `processRecord_tracked`; no later
proof unfolds the actions again.
-/

namespace StockFeed

open StateAction

/-! ## Sizes and trimming -/

theorem sizeInt_le_length (prices : List Int32) :
    sizeInt prices ≤ prices.length := by
  unfold sizeInt
  rw [Int.bmod_def]
  split <;> omega

theorem sizeInt_of_lt {prices : List Int32} (hlt : prices.length < 2 ^ 31) :
    sizeInt prices = prices.length := by
  unfold sizeInt
  rw [Int.bmod_def]
  split <;> omega

/-- The window `allPriceOK` leaves behind when it passes a deque. -/
def trim (cfg : Config) (prices : List Int32) : List Int32 :=
  prices.drop (sizeInt prices - cfg.priceListSize).toNat

theorem popFrontTimes_eq_drop
    {n : ℕ} {prices : List Int32} (hn : n ≤ prices.length) :
    popFrontTimes n prices = some (prices.drop n) := by
  induction n generalizing prices with
  | zero => rfl
  | succ n ih =>
      cases prices with
      | nil => simp at hn
      | cons price rest => exact ih (by simpa using hn)

theorem trimOrStop_of_le
    {cfg : Config} {prices : List Int32}
    (hsize : (cfg.priceListSize : ℤ) ≤ sizeInt prices) :
    trimOrStop cfg prices = some (.yield (trim cfg prices)) := by
  have hlength := sizeInt_le_length prices
  unfold trimOrStop trim
  by_cases hlt : (cfg.priceListSize : ℤ) < sizeInt prices
  · simp only [if_pos hlt]
    rw [popFrontTimes_eq_drop (by omega)]
    rfl
  · have heq : sizeInt prices = cfg.priceListSize := by omega
    simp [heq]

theorem trimOrStop_of_lt
    {cfg : Config} {prices : List Int32}
    (hsize : sizeInt prices < cfg.priceListSize) :
    trimOrStop cfg prices = some (.done prices) := by
  unfold trimOrStop
  simp only [if_neg (not_lt.mpr hsize.le), if_pos hsize]

theorem trim_suffix (cfg : Config) (prices : List Int32) :
    trim cfg prices <:+ prices :=
  List.drop_suffix _ _

theorem priceListSize_le_trim_length
    {cfg : Config} {prices : List Int32}
    (hsize : (cfg.priceListSize : ℤ) ≤ sizeInt prices) :
    cfg.priceListSize ≤ (trim cfg prices).length := by
  have hlength := sizeInt_le_length prices
  unfold trim
  rw [List.length_drop]
  omega

theorem trim_eq_rtake
    {cfg : Config} {prices : List Int32} (hlt : prices.length < 2 ^ 31) :
    trim cfg prices = prices.rtake cfg.priceListSize := by
  unfold trim List.rtake
  rw [sizeInt_of_lt hlt]
  congr 1
  omega

/-! ## One call of allPriceOK -/

/-- Everything a call of `allPriceOK` can do from `s`.  A call which answers
false stopped at the first short deque: the ones before it were long enough
and are trimmed, the ones behind it are as they were. -/
structure Query (cfg : Config) (s : Server) (ok : Bool) (s' : Server) :
    Prop where
  run : allPriceOK cfg s = .ok ok s'
  frame : s' = { s with g_priceMap := s'.g_priceMap, g_ready := ok }
  keys : s'.g_priceMap.keys = s.g_priceMap.keys
  latched : s.g_ready = true → ok = true ∧ s'.g_priceMap = s.g_priceMap
  passed : s.g_ready = false → ok = true →
    ∀ id ∈ s.g_priceMap.keys, (cfg.priceListSize : ℤ) ≤ sizeInt (s.deque id) ∧
      s'.deque id = trim cfg (s.deque id)
  stopped : ok = false → ∃ id ∈ s.g_priceMap.keys,
    sizeInt (s.deque id) < cfg.priceListSize ∧
    (∀ id' ∈ s.g_priceMap.keys, id' < id →
      (cfg.priceListSize : ℤ) ≤ sizeInt (s.deque id') ∧
        s'.deque id' = trim cfg (s.deque id')) ∧
    ∀ id', id ≤ id' → s'.deque id' = s.deque id'

theorem Server.deque_eq_of_find?
    {s : Server} {id : Int32} {prices : List Int32}
    (hfind : s.g_priceMap.find? id = some prices) : s.deque id = prices := by
  simp [Server.deque, hfind]

theorem Server.deque_eq_nil_of_notMem
    {s : Server} {id : Int32} (hid : id ∉ s.g_priceMap.keys) :
    s.deque id = [] := by
  rw [← OrderedMap.find?_isSome_iff, Option.not_isSome_iff_eq_none] at hid
  simp [Server.deque, hid]

theorem Server.find?_eq_deque
    {s : Server} {id : Int32} (hid : id ∈ s.g_priceMap.keys) :
    s.g_priceMap.find? id = some (s.deque id) := by
  obtain ⟨prices, hfind⟩ := OrderedMap.exists_find?_of_mem_keys hid
  rw [hfind, Server.deque_eq_of_find? hfind]

theorem trimOrStop_eq_some
    {cfg : Config} {prices : List Int32} {step : ForInStep (List Int32)}
    (hstep : trimOrStop cfg prices = some step) :
    ((cfg.priceListSize : ℤ) ≤ sizeInt prices ∧
        step = .yield (trim cfg prices)) ∨
      (sizeInt prices < cfg.priceListSize ∧ step = .done prices) := by
  rcases le_or_gt (cfg.priceListSize : ℤ) (sizeInt prices) with hle | hlt
  · rw [trimOrStop_of_le hle, Option.some.injEq] at hstep
    exact Or.inl ⟨hle, hstep.symm⟩
  · rw [trimOrStop_of_lt hlt, Option.some.injEq] at hstep
    exact Or.inr ⟨hlt, hstep.symm⟩

theorem yield_eq_trim
    {cfg : Config} {prices trimmed : List Int32}
    (hstep : trimOrStop cfg prices = some (.yield trimmed)) :
    (cfg.priceListSize : ℤ) ≤ sizeInt prices ∧ trimmed = trim cfg prices := by
  rcases trimOrStop_eq_some hstep with ⟨hle, heq⟩ | ⟨_, heq⟩
  · rw [ForInStep.yield.injEq] at heq
    exact ⟨hle, heq⟩
  · simp at heq

theorem done_eq_self
    {cfg : Config} {prices rest : List Int32}
    (hstep : trimOrStop cfg prices = some (.done rest)) :
    sizeInt prices < cfg.priceListSize ∧ rest = prices := by
  rcases trimOrStop_eq_some hstep with ⟨_, heq⟩ | ⟨hlt, heq⟩
  · simp at heq
  · rw [ForInStep.done.injEq] at heq
    exact ⟨hlt, heq⟩

theorem Query.of_visit
    {cfg : Config} {s : Server} {data : StockPriceMap} {ok : Bool}
    (hready : s.g_ready = false)
    (hvisit : s.g_priceMap.visit (trimOrStop cfg) = some (data, ok)) :
    Query cfg s ok { s with g_priceMap := data, g_ready := ok } := by
  have hspec := OrderedMap.visit_spec hvisit
  let s' : Server := { s with g_priceMap := data, g_ready := ok }
  have hrun : allPriceOK cfg s = .ok ok s' := by
    cases ok with
    | true =>
        simp only [allPriceOK, bind_apply, get_apply, hready, hvisit, s']
        rfl
    | false =>
        simp only [allPriceOK, bind_apply, get_apply, hready, hvisit, s']
        rfl
  have hyield : ∀ id, (∀ v, s.g_priceMap.find? id = some v →
      ∃ v', trimOrStop cfg v = some (.yield v') ∧ data.find? id = some v') →
      id ∈ s.g_priceMap.keys →
        (cfg.priceListSize : ℤ) ≤ sizeInt (s.deque id) ∧
          s'.deque id = trim cfg (s.deque id) := by
    intro id hbody hid
    obtain ⟨prices, hstep, hfind⟩ := hbody _ (Server.find?_eq_deque hid)
    have htrim := yield_eq_trim hstep
    exact ⟨htrim.1,
      (Server.deque_eq_of_find? (s := s') hfind).trans htrim.2⟩
  refine ⟨hrun, rfl, hspec.1, by simp [hready], ?_, ?_⟩
  · intro _ hok id hid
    exact hyield id (hspec.2.yielded hok id) hid
  · intro hok
    rcases hspec.2.stopped hok with
      ⟨id, prices, rest, hfind, hstep, hafter, hfront, hback⟩
    have hdone := done_eq_self hstep
    have hdeque := Server.deque_eq_of_find? hfind
    refine ⟨id, OrderedMap.mem_keys_of_find? hfind, ?_, ?_, ?_⟩
    · rw [hdeque]
      exact hdone.1
    · intro id' hid' hlt
      exact hyield id' (hfront id' hlt) hid'
    · intro id' hle
      rcases eq_or_lt_of_le hle with rfl | hlt
      · rw [hdeque, ← hdone.2]
        exact Server.deque_eq_of_find? (s := s') hafter
      · exact congrArg (fun found => found.getD []) (hback id' hlt)

/-- A call always returns: trimming never pops from an empty deque. -/
theorem exists_query (cfg : Config) (s : Server) :
    ∃ ok s', Query cfg s ok s' := by
  cases hready : s.g_ready with
  | true =>
      refine ⟨true, s, ?_, ?_, rfl, fun _ => ⟨rfl, rfl⟩, by simp [hready],
        by simp⟩
      · simp [allPriceOK, bind_apply, hready]
      · cases s
        simp_all
  | false =>
      have hbody : ∀ id prices, s.g_priceMap.find? id = some prices →
          (trimOrStop cfg prices).isSome := by
        intro id prices _
        rcases le_or_gt (cfg.priceListSize : ℤ) (sizeInt prices) with hle | hlt
        · simp [trimOrStop_of_le hle]
        · simp [trimOrStop_of_lt hlt]
      rcases Option.isSome_iff_exists.mp (OrderedMap.visit_isSome hbody) with
        ⟨⟨data, ok⟩, hvisit⟩
      exact ⟨ok, _, Query.of_visit hready hvisit⟩

theorem Query.deque_latched
    {cfg : Config} {s s' : Server} {ok : Bool} (hquery : Query cfg s ok s')
    (hready : s.g_ready = true) (id : Int32) : s'.deque id = s.deque id := by
  simp [Server.deque, (hquery.latched hready).2]

theorem Query.kept
    {cfg : Config} {s s' : Server} {ok : Bool} (hquery : Query cfg s ok s')
    (id : Int32) :
    s'.deque id = s.deque id ∨
      (cfg.priceListSize : ℤ) ≤ sizeInt (s.deque id) ∧
        s'.deque id = trim cfg (s.deque id) := by
  by_cases hid : id ∈ s.g_priceMap.keys
  · cases hready : s.g_ready with
    | true => exact Or.inl (hquery.deque_latched hready id)
    | false =>
        cases ok with
        | true => exact Or.inr (hquery.passed hready rfl id hid)
        | false =>
            obtain ⟨stop, _, _, hfront, hback⟩ := hquery.stopped rfl
            rcases lt_or_ge id stop with hlt | hge
            · exact Or.inr (hfront id hid hlt)
            · exact Or.inl (hback id hge)
  · left
    have hid' : id ∉ s'.g_priceMap.keys := by
      rw [hquery.keys]
      exact hid
    rw [Server.deque_eq_nil_of_notMem hid,
      Server.deque_eq_nil_of_notMem hid']

theorem Query.suffix
    {cfg : Config} {s s' : Server} {ok : Bool} (hquery : Query cfg s ok s')
    (id : Int32) : s'.deque id <:+ s.deque id := by
  rcases hquery.kept id with heq | ⟨_, heq⟩
  · rw [heq]
  · rw [heq]
    exact trim_suffix cfg _

/-! ## The pieces of one record step -/

namespace Server

/-- Store a tracked record after the first query answered `ok`. -/
def store (ok : Bool) (loop_id : Int32) (st : Stock) (s : Server) : Server :=
  { s with
    g_priceMap := s.g_priceMap.upsert st.id_ fun _ =>
      (if ok then (s.deque st.id_).tail else s.deque st.id_) ++
        [st.close_price_]
    g_current_stocks := s.g_current_stocks + 1
    trace := s.trace ++ [.applied loop_id st] }

def announce (s : Server) : Server :=
  { s with trace := s.trace ++ [.serverGetAll] }

/-- End a batch after the second query answered `ok`. -/
def finish (ok : Bool) (loop_id : Int32) (s : Server) : Server :=
  if ok then
    { s with
      g_last_loop := -1
      g_last_done_loop := loop_id
      g_current_stocks := 0
      trace := s.trace ++ [.coefficient loop_id s.g_priceMap] }
  else
    { s with g_current_stocks := 0 }

theorem deque_store
    (ok : Bool) (loop_id : Int32) (st : Stock) (s : Server) (id : Int32) :
    (s.store ok loop_id st).deque id =
      if id = st.id_ then
        (if ok then (s.deque st.id_).tail else s.deque st.id_) ++
          [st.close_price_]
      else s.deque id := by
  unfold store
  simp only [deque, OrderedMap.find?_upsert]
  split_ifs <;> rfl

@[simp] theorem deque_announce (s : Server) (id : Int32) :
    s.announce.deque id = s.deque id := rfl

@[simp] theorem g_priceMap_finish (ok : Bool) (loop_id : Int32) (s : Server) :
    (s.finish ok loop_id).g_priceMap = s.g_priceMap := by
  unfold finish
  split_ifs <;> rfl

@[simp] theorem g_ready_finish (ok : Bool) (loop_id : Int32) (s : Server) :
    (s.finish ok loop_id).g_ready = s.g_ready := by
  unfold finish
  split_ifs <;> rfl

@[simp] theorem g_current_stocks_finish
    (ok : Bool) (loop_id : Int32) (s : Server) :
    (s.finish ok loop_id).g_current_stocks = 0 := by
  unfold finish
  split_ifs <;> rfl

@[simp] theorem deque_finish
    (ok : Bool) (loop_id : Int32) (s : Server) (id : Int32) :
    (s.finish ok loop_id).deque id = s.deque id := by
  simp [deque]

end Server

/-- The ids `main` creates a window for. -/
def trackedIds (cfg : Config) : List Int32 :=
  (List.range cfg.serverStock).map Int32.ofNat

instance decidableTracked (cfg : Config) (id : Int32) :
    Decidable (id ∈ trackedIds cfg) :=
  inferInstance

/-- The invariant behind the absence of faults: the key set is the one `main`
created, a latched server has only full windows, and the batch counter is
below its limit. -/
structure Server.Sound (cfg : Config) (s : Server) : Prop where
  keys : s.g_priceMap.keys = trackedIds cfg
  full : s.g_ready = true → ∀ id ∈ trackedIds cfg,
    cfg.priceListSize ≤ (s.deque id).length
  counter : s.g_current_stocks < cfg.serverStock

theorem Query.full
    {cfg : Config} {s s' : Server} (hquery : Query cfg s true s')
    (hkeys : s.g_priceMap.keys = trackedIds cfg)
    (hfull : s.g_ready = true → ∀ id ∈ trackedIds cfg,
      cfg.priceListSize ≤ (s.deque id).length) :
    ∀ id ∈ trackedIds cfg, cfg.priceListSize ≤ (s'.deque id).length := by
  intro id hid
  cases hready : s.g_ready with
  | true =>
      have hmap := (hquery.latched hready).2
      have hdeque : s'.deque id = s.deque id := by simp [Server.deque, hmap]
      rw [hdeque]
      exact hfull hready id hid
  | false =>
      have hpassed := hquery.passed hready rfl id (hkeys ▸ hid)
      rw [hpassed.2]
      exact priceListSize_le_trim_length hpassed.1

/-- Every way one turn of the decode loop can end. -/
inductive RecordStep (cfg : Config) (loop_id : Int32) (st : Stock)
    (s : Server) : Server → Prop
  | untracked (hid : st.id_ ∉ trackedIds cfg) : RecordStep cfg loop_id st s s
  | stored {ok : Bool} {s₁ : Server}
      (hid : st.id_ ∈ trackedIds cfg) (hquery : Query cfg s ok s₁)
      (hcount : s.g_current_stocks + 1 ≠ cfg.serverStock) :
      RecordStep cfg loop_id st s (s₁.store ok loop_id st)
  | batch {ok ok' : Bool} {s₁ s₂ : Server}
      (hid : st.id_ ∈ trackedIds cfg) (hquery : Query cfg s ok s₁)
      (hcount : s.g_current_stocks + 1 = cfg.serverStock)
      (hagain : Query cfg (s₁.store ok loop_id st).announce ok' s₂) :
      RecordStep cfg loop_id st s (s₂.finish ok' loop_id)

theorem popFrontAt_pushBack
    {id : Int32} {loop_id : Int32} {st : Stock} {s : Server}
    (hid : st.id_ = id) (hpos : 0 < (s.deque id).length) :
    (popFrontAt id >>= fun _ => pushBack loop_id st) s =
      .ok () (s.store true loop_id st) := by
  subst hid
  cases hdeque : s.deque st.id_ with
  | nil => simp [hdeque] at hpos
  | cons price rest =>
      simp only [popFrontAt, bind_apply, get_apply, hdeque, popFront, set_apply,
        pushBack, modify_apply, Server.store]
      congr 2
      apply OrderedMap.ext_find?
      intro key
      simp only [OrderedMap.find?_upsert]
      split_ifs <;> simp

theorem pushBack_apply (loop_id : Int32) (st : Stock) (s : Server) :
    pushBack loop_id st s = .ok () (s.store false loop_id st) := by
  simp only [pushBack, modify_apply, Server.store]
  congr 2
  apply OrderedMap.ext_find?
  intro key
  simp only [OrderedMap.find?_upsert, Bool.false_eq_true, if_false]
  split_ifs <;> rfl

theorem getAll_apply
    {cfg : Config} {loop_id : Int32} {s s' : Server} {ok : Bool}
    (hquery : Query cfg s.announce ok s') :
    getAll cfg loop_id s = .ok () (s'.finish ok loop_id) := by
  have hrun := hquery.run
  unfold Server.announce at hrun
  cases ok <;>
    simp [getAll, bind_apply, hrun, Server.finish]

/-- A sound server processes every record without a fault, in one of the
ways `RecordStep` lists. -/
theorem exists_recordStep
    {cfg : Config} {s : Server} (hsound : s.Sound cfg)
    (loop_id : Int32) (st : Stock) :
    ∃ s', processRecord cfg loop_id st s = .ok () s' ∧
      RecordStep cfg loop_id st s s' := by
  by_cases hid : st.id_ ∈ trackedIds cfg
  · have hfind : (s.g_priceMap.find? st.id_).isSome := by
      rw [OrderedMap.find?_isSome_iff, hsound.keys]
      exact hid
    obtain ⟨ok, s₁, hquery⟩ := exists_query cfg s
    have hstore : storeRecord cfg loop_id st s =
        .ok () (s₁.store ok loop_id st) := by
      unfold storeRecord
      rw [bind_apply_of_ok hquery.run]
      cases ok with
      | false => exact pushBack_apply loop_id st s₁
      | true =>
          have hfull := hquery.full hsound.keys hsound.full st.id_ hid
          have hpos := cfg.priceListSize_pos
          exact popFrontAt_pushBack rfl (by omega)
    have hcurrent : (s₁.store ok loop_id st).g_current_stocks =
        s.g_current_stocks + 1 := by
      rw [hquery.frame]
      rfl
    have hrest : processRecord cfg loop_id st s =
        if s.g_current_stocks + 1 = cfg.serverStock then
          getAll cfg loop_id (s₁.store ok loop_id st)
        else .ok () (s₁.store ok loop_id st) := by
      rw [← hcurrent]
      unfold processRecord
      rw [bind_apply_of_ok (get_apply s), if_pos hfind,
        bind_apply_of_ok hstore, bind_apply_of_ok (get_apply _)]
      split_ifs <;> rfl
    by_cases hcount : s.g_current_stocks + 1 = cfg.serverStock
    · rcases exists_query cfg (s₁.store ok loop_id st).announce with
        ⟨ok', s₂, hagain⟩
      refine ⟨s₂.finish ok' loop_id, ?_,
        .batch hid hquery hcount hagain⟩
      rw [hrest, if_pos hcount, getAll_apply hagain]
    · refine ⟨s₁.store ok loop_id st, ?_, .stored hid hquery hcount⟩
      rw [hrest, if_neg hcount]
  · have hfind : ¬ (s.g_priceMap.find? st.id_).isSome := by
      rw [OrderedMap.find?_isSome_iff, hsound.keys]
      exact hid
    refine ⟨s, ?_, .untracked hid⟩
    simp [processRecord, bind_apply, hfind]

/-! ## Soundness is kept -/

theorem mem_trackedIds {cfg : Config} {id : Int32} :
    id ∈ trackedIds cfg ↔ ∃ i < cfg.serverStock, Int32.ofNat i = id := by
  simp [trackedIds]

theorem trackedIds_sorted (cfg : Config) :
    (trackedIds cfg).Pairwise (· < ·) := by
  unfold trackedIds
  rw [List.pairwise_map]
  apply List.Pairwise.imp_of_mem _ List.pairwise_lt_range
  intro i j hi hj hlt
  have hbound := cfg.serverStock_lt
  rw [List.mem_range] at hi hj
  rw [Int32.lt_iff_toInt_lt, Int32.toInt_ofNat_of_lt (by omega),
    Int32.toInt_ofNat_of_lt (by omega)]
  omega

theorem find?_initialWindows (n : ℕ) (id : Int32) :
    ((List.range n).foldl (fun (data : StockPriceMap) i =>
        data.upsert (Int32.ofNat i) fun _ => []) .empty).find? id =
      if ∃ i < n, Int32.ofNat i = id then some [] else none := by
  induction n with
  | zero => simp [OrderedMap.find?, OrderedMap.empty, OrderedMap.findEntry]
  | succ n ih =>
      rw [List.range_succ, List.foldl_append, List.foldl_cons, List.foldl_nil,
        OrderedMap.find?_upsert, ih]
      by_cases hlast : id = Int32.ofNat n
      · rw [if_pos hlast, if_pos ⟨n, by omega, hlast.symm⟩]
      · rw [if_neg hlast]
        have hiff : (∃ i < n + 1, Int32.ofNat i = id) ↔
            ∃ i < n, Int32.ofNat i = id := by
          constructor
          · intro h
            rcases h with ⟨i, hi, heq⟩
            have hne : i ≠ n := by
              intro hin
              exact hlast (by rw [← heq, hin])
            exact ⟨i, by omega, heq⟩
          · intro h
            rcases h with ⟨i, hi, heq⟩
            exact ⟨i, by omega, heq⟩
        simp only [hiff]

theorem find?_initialPriceMap (cfg : Config) (id : Int32) :
    (initialPriceMap cfg).find? id =
      if id ∈ trackedIds cfg then some [] else none := by
  unfold initialPriceMap
  rw [find?_initialWindows]
  simp only [mem_trackedIds]

theorem keys_initialPriceMap (cfg : Config) :
    (initialPriceMap cfg).keys = trackedIds cfg := by
  have hmem : ∀ id, id ∈ (initialPriceMap cfg).keys ↔ id ∈ trackedIds cfg := by
    intro id
    rw [← OrderedMap.find?_isSome_iff, find?_initialPriceMap]
    split_ifs with hid <;> simp [hid]
  have hnodup : (trackedIds cfg).Nodup := (trackedIds_sorted cfg).imp ne_of_lt
  have hperm := (List.perm_ext_iff_of_nodup
    (initialPriceMap cfg).keys_nodup hnodup).mpr hmem
  exact hperm.eq_of_pairwise
    (fun _ _ _ _ hab hba => absurd hab (not_lt.mpr hba.le))
    (initialPriceMap cfg).sorted (trackedIds_sorted cfg)

@[simp] theorem deque_initial (cfg : Config) (id : Int32) :
    (Server.initial cfg).deque id = [] := by
  unfold Server.deque Server.initial
  rw [find?_initialPriceMap]
  split_ifs <;> rfl

theorem Server.initial_sound (cfg : Config) :
    (Server.initial cfg).Sound cfg where
  keys := keys_initialPriceMap cfg
  full := by simp [Server.initial]
  counter := cfg.serverStock_pos

theorem Server.keys_store
    {ok : Bool} {loop_id : Int32} {st : Stock} {s : Server}
    (hid : st.id_ ∈ s.g_priceMap.keys) :
    (s.store ok loop_id st).g_priceMap.keys = s.g_priceMap.keys :=
  OrderedMap.keys_upsert_of_mem hid _

theorem Server.full_store
    {cfg : Config} {loop_id : Int32} {st : Stock} {s : Server}
    (hfull : ∀ id ∈ trackedIds cfg, cfg.priceListSize ≤ (s.deque id).length) :
    ∀ id ∈ trackedIds cfg,
      cfg.priceListSize ≤ ((s.store true loop_id st).deque id).length := by
  intro id hid
  have hlength := hfull id hid
  have hpos := cfg.priceListSize_pos
  rw [Server.deque_store]
  by_cases heq : id = st.id_
  · subst heq
    simp only [if_true, List.length_append, List.length_tail,
      List.length_singleton]
    omega
  · rw [if_neg heq]
    exact hlength

theorem Query.ready_eq
    {cfg : Config} {s s' : Server} {ok : Bool} (hquery : Query cfg s ok s') :
    s'.g_ready = ok := by
  rw [hquery.frame]

theorem Query.keys_eq_trackedIds
    {cfg : Config} {s s' : Server} {ok : Bool} (hquery : Query cfg s ok s')
    (hsound : s.Sound cfg) : s'.g_priceMap.keys = trackedIds cfg :=
  hquery.keys.trans hsound.keys

theorem Query.store_keys
    {cfg : Config} {s s' : Server} {ok : Bool} {st : Stock}
    (hquery : Query cfg s ok s') (hsound : s.Sound cfg)
    (hid : st.id_ ∈ trackedIds cfg) (loop_id : Int32) :
    (s'.store ok loop_id st).g_priceMap.keys = trackedIds cfg := by
  have hkeys := hquery.keys_eq_trackedIds hsound
  rw [Server.keys_store (by rw [hkeys]; exact hid), hkeys]

theorem Query.store_full
    {cfg : Config} {s s' : Server} {ok : Bool}
    (hquery : Query cfg s ok s') (hsound : s.Sound cfg)
    (loop_id : Int32) (st : Stock)
    (hready : (s'.store ok loop_id st).g_ready = true) :
    ∀ id ∈ trackedIds cfg,
      cfg.priceListSize ≤ ((s'.store ok loop_id st).deque id).length := by
  have hok : ok = true := hquery.ready_eq.symm.trans hready
  subst hok
  exact Server.full_store (hquery.full hsound.keys hsound.full)

theorem RecordStep.sound
    {cfg : Config} {loop_id : Int32} {st : Stock} {s s' : Server}
    (hstep : RecordStep cfg loop_id st s s') (hsound : s.Sound cfg) :
    s'.Sound cfg := by
  cases hstep with
  | untracked hid => exact hsound
  | @stored ok s₁ hid hquery hcount =>
      refine ⟨hquery.store_keys hsound hid loop_id, hquery.store_full hsound loop_id st, ?_⟩
      have hcounter := hsound.counter
      have hcurrent : (s₁.store ok loop_id st).g_current_stocks =
          s.g_current_stocks + 1 := by
        rw [hquery.frame]
        rfl
      omega
  | @batch ok ok' s₁ s₂ hid hquery hcount hagain =>
      refine ⟨?_, ?_, ?_⟩
      · rw [Server.g_priceMap_finish, hagain.keys]
        exact hquery.store_keys hsound hid loop_id
      · intro hready
        have hok : ok' = true := by
          rw [Server.g_ready_finish, hagain.ready_eq] at hready
          exact hready
        subst hok
        simp only [Server.deque_finish]
        exact hagain.full (hquery.store_keys hsound hid loop_id)
          (hquery.store_full hsound loop_id st)
      · rw [Server.g_current_stocks_finish]
        exact cfg.serverStock_pos

/-! ## Before the server is ready -/

@[simp] theorem coefficientCalls_append (first second : List Action) :
    coefficientCalls (first ++ second) =
      coefficientCalls first ++ coefficientCalls second :=
  List.filterMap_append

@[simp] theorem coefficientCalls_applied (loop_id : Int32) (st : Stock) :
    coefficientCalls [.applied loop_id st] = [] := rfl

@[simp] theorem coefficientCalls_serverGetAll :
    coefficientCalls [.serverGetAll] = [] := rfl

/-- A server that has not latched, has not finished a loop and has not called
`coefficient`. -/
structure Server.Waiting (s : Server) : Prop where
  ready : s.g_ready = false
  done : s.g_last_done_loop = -1
  silent : coefficientCalls s.trace = []

theorem Query.not_ready_before
    {cfg : Config} {s s' : Server} {ok : Bool} (hquery : Query cfg s ok s')
    (hok : ok = false) : s.g_ready = false := by
  cases hready : s.g_ready with
  | false => rfl
  | true => simp [(hquery.latched hready).1] at hok

theorem RecordStep.waiting_of_not_ready
    {cfg : Config} {loop_id : Int32} {st : Stock} {s s' : Server}
    (hstep : RecordStep cfg loop_id st s s')
    (hwaiting : s.g_ready = false → s.Waiting) (hready : s'.g_ready = false) :
    s'.Waiting := by
  cases hstep with
  | untracked _ => exact hwaiting hready
  | @stored ok s₁ _ hquery _ =>
      have hok : ok = false := hquery.ready_eq.symm.trans hready
      have hbefore := hwaiting (hquery.not_ready_before hok)
      have hframe := hquery.frame
      refine ⟨hready, ?_, ?_⟩
      · rw [hframe]
        exact hbefore.done
      · rw [hframe]
        simp [Server.store, hbefore.silent]
  | @batch ok ok' s₁ s₂ _ hquery _ hagain =>
      have hok' : ok' = false := by
        rw [← hagain.ready_eq, ← hready, Server.g_ready_finish]
      have hmid : s₁.g_ready = false := hagain.not_ready_before hok'
      have hok : ok = false := hquery.ready_eq.symm.trans hmid
      have hbefore := hwaiting (hquery.not_ready_before hok)
      subst hok'
      refine ⟨hready, ?_, ?_⟩
      · simp only [Server.finish, Bool.false_eq_true, if_false]
        rw [hagain.frame]
        simp only [Server.announce, Server.store]
        rw [hquery.frame]
        exact hbefore.done
      · simp only [Server.finish, Bool.false_eq_true, if_false]
        rw [hagain.frame]
        simp only [Server.announce, Server.store]
        rw [hquery.frame]
        simp only [coefficientCalls_append, hbefore.silent]
        rfl

/-! ## Runs over decoded payloads -/

def recordState (cfg : Config) (loop_id : Int32) (s : Server) (st : Stock) :
    Server :=
  finalState (processRecord cfg loop_id st s)

def recordsState (cfg : Config) (loop_id : Int32) (s : Server)
    (records : List Stock) : Server :=
  records.foldl (recordState cfg loop_id) s

def payloadState (cfg : Config) (s : Server) (payload : Payload) : Server :=
  if s.g_last_done_loop = payload.loop_id then s
  else recordsState cfg payload.loop_id
    { s with g_last_loop := payload.loop_id } payload.records

def runState (cfg : Config) (payloads : List Payload) : Server :=
  payloads.foldl (payloadState cfg) (Server.initial cfg)

theorem processRecord_ok
    {cfg : Config} {s : Server} (hsound : s.Sound cfg)
    (loop_id : Int32) (st : Stock) :
    processRecord cfg loop_id st s = .ok () (recordState cfg loop_id s st) := by
  obtain ⟨s', hrun, _⟩ := exists_recordStep hsound loop_id st
  unfold recordState
  rw [hrun]
  rfl

theorem recordStep_recordState
    {cfg : Config} {s : Server} (hsound : s.Sound cfg)
    (loop_id : Int32) (st : Stock) :
    RecordStep cfg loop_id st s (recordState cfg loop_id s st) := by
  obtain ⟨s', hrun, hstep⟩ := exists_recordStep hsound loop_id st
  unfold recordState
  rw [hrun]
  exact hstep

theorem recordsState_sound
    {cfg : Config} {s : Server} (hsound : s.Sound cfg)
    (loop_id : Int32) (records : List Stock) :
    (recordsState cfg loop_id s records).Sound cfg := by
  induction records generalizing s with
  | nil => exact hsound
  | cons st rest ih =>
      exact ih ((recordStep_recordState hsound loop_id st).sound hsound)

theorem forM_processRecord_ok
    {cfg : Config} {s : Server} (hsound : s.Sound cfg)
    (loop_id : Int32) (records : List Stock) :
    forM records (processRecord cfg loop_id) s =
      .ok () (recordsState cfg loop_id s records) := by
  induction records generalizing s with
  | nil => rfl
  | cons st rest ih =>
      rw [forM_cons_apply, processRecord_ok hsound]
      exact ih ((recordStep_recordState hsound loop_id st).sound hsound)

theorem Server.Sound.withLastLoop
    {cfg : Config} {s : Server} (hsound : s.Sound cfg) (loop_id : Int32) :
    ({ s with g_last_loop := loop_id } : Server).Sound cfg :=
  ⟨hsound.keys, hsound.full, hsound.counter⟩

theorem payloadState_sound
    {cfg : Config} {s : Server} (hsound : s.Sound cfg) (payload : Payload) :
    (payloadState cfg s payload).Sound cfg := by
  unfold payloadState
  split_ifs
  · exact hsound
  · exact recordsState_sound (hsound.withLastLoop payload.loop_id) _ _

theorem unlessDone_apply (loop_id : Int32) (body : ServerM Unit) (s : Server) :
    unlessDone loop_id body s =
      if s.g_last_done_loop = loop_id then .ok () s
      else body { s with g_last_loop := loop_id } := by
  unfold unlessDone
  rw [bind_apply_of_ok (get_apply s)]
  by_cases hdone : s.g_last_done_loop = loop_id
  · simp [hdone]
  · by_cases hlast : loop_id = s.g_last_loop
    · subst hlast
      simp [hdone]
    · simp [hdone, hlast, bind_apply]

theorem processPayload_ok
    {cfg : Config} {s : Server} (hsound : s.Sound cfg) (payload : Payload) :
    processPayload cfg payload s = .ok () (payloadState cfg s payload) := by
  unfold processPayload payloadState
  rw [unlessDone_apply]
  split_ifs
  · rfl
  · exact forM_processRecord_ok (hsound.withLastLoop payload.loop_id) _ _

theorem runState_sound (cfg : Config) (payloads : List Payload) :
    (runState cfg payloads).Sound cfg := by
  unfold runState
  exact List.foldlRecOn payloads _ (Server.initial_sound cfg)
    fun _ hsound payload _ => payloadState_sound hsound payload

/-- No payload sequence makes the server fault. -/
theorem runPayloads_ok (cfg : Config) (payloads : List Payload) :
    runPayloads cfg payloads = .ok () (runState cfg payloads) := by
  have hrun : ∀ s : Server, s.Sound cfg →
      forM payloads (processPayload cfg) s =
        .ok () (payloads.foldl (payloadState cfg) s) := by
    induction payloads with
    | nil => exact fun s _ => rfl
    | cons payload rest ih =>
        intro s hsound
        rw [forM_cons_apply, processPayload_ok hsound]
        exact ih _ (payloadState_sound hsound payload)
  exact hrun _ (Server.initial_sound cfg)

@[simp] theorem runState_nil (cfg : Config) :
    runState cfg [] = Server.initial cfg := rfl

theorem runState_append (cfg : Config) (payloads more : List Payload) :
    runState cfg (payloads ++ more) =
      more.foldl (payloadState cfg) (runState cfg payloads) := by
  unfold runState
  rw [List.foldl_append]

@[simp] theorem runState_concat
    (cfg : Config) (payloads : List Payload) (payload : Payload) :
    runState cfg (payloads ++ [payload]) =
      payloadState cfg (runState cfg payloads) payload := by
  rw [runState_append]
  rfl

/-- Induction over a run: what a record step keeps, and `g_last_loop` does
not matter for, holds in every reachable state. -/
theorem runState_invariant
    {cfg : Config} {Inv : Server → Prop} (hinit : Inv (Server.initial cfg))
    (hlast : ∀ s loop_id, Inv s → Inv { s with g_last_loop := loop_id })
    (hrecord : ∀ s s' loop_id st, s.Sound cfg → Inv s →
      RecordStep cfg loop_id st s s' → Inv s')
    (payloads : List Payload) : Inv (runState cfg payloads) := by
  have hrecords : ∀ loop_id records s, s.Sound cfg → Inv s →
      Inv (recordsState cfg loop_id s records) := by
    intro loop_id records
    induction records with
    | nil => exact fun s _ hinv => hinv
    | cons st rest ih =>
        intro s hsound hinv
        have hstep := recordStep_recordState hsound loop_id st
        exact ih _ (hstep.sound hsound) (hrecord _ _ _ _ hsound hinv hstep)
  induction payloads using List.reverseRecOn with
  | nil => exact hinit
  | append_singleton payloads payload ih =>
      rw [runState_concat]
      unfold payloadState
      split_ifs
      · exact ih
      · exact hrecords _ _ _
          ((runState_sound cfg payloads).withLastLoop _) (hlast _ _ ih)

/-! ## A record adds at most one price -/

theorem Query.length_le
    {cfg : Config} {s s' : Server} {ok : Bool} (hquery : Query cfg s ok s')
    (id : Int32) : (s'.deque id).length ≤ (s.deque id).length :=
  (hquery.suffix id).length_le

theorem Server.length_deque_store_le
    (ok : Bool) (loop_id : Int32) (st : Stock) (s : Server) (id : Int32) :
    ((s.store ok loop_id st).deque id).length ≤ (s.deque id).length + 1 := by
  rw [Server.deque_store]
  by_cases heq : id = st.id_
  · subst heq
    cases ok <;> simp
  · rw [if_neg heq]
    omega

theorem RecordStep.length_le
    {cfg : Config} {loop_id : Int32} {st : Stock} {s s' : Server}
    (hstep : RecordStep cfg loop_id st s s') (id : Int32) :
    (s'.deque id).length ≤ (s.deque id).length + 1 := by
  cases hstep with
  | untracked _ => omega
  | @stored ok s₁ _ hquery _ =>
      have hgrow := Server.length_deque_store_le ok loop_id st s₁ id
      have htrim := hquery.length_le id
      omega
  | @batch ok ok' s₁ s₂ _ hquery _ hagain =>
      have hgrow := Server.length_deque_store_le ok loop_id st s₁ id
      have htrim := hquery.length_le id
      have hagainTrim := hagain.length_le id
      rw [Server.deque_announce] at hagainTrim
      rw [Server.deque_finish]
      omega

theorem recordsState_length_le
    {cfg : Config} {s : Server} (hsound : s.Sound cfg)
    (loop_id : Int32) (records : List Stock) (id : Int32) :
    ((recordsState cfg loop_id s records).deque id).length ≤
      (s.deque id).length + records.length := by
  induction records generalizing s with
  | nil => exact le_refl _
  | cons st rest ih =>
      have hstep := recordStep_recordState hsound loop_id st
      have hone := hstep.length_le id
      have hrest := ih (hstep.sound hsound)
      rw [List.length_cons]
      change ((recordsState cfg loop_id
        (recordState cfg loop_id s st) rest).deque id).length ≤ _
      omega

theorem runState_length_le
    (cfg : Config) (payloads : List Payload) (id : Int32) :
    ((runState cfg payloads).deque id).length ≤
      (payloads.flatMap Payload.records).length := by
  induction payloads using List.reverseRecOn with
  | nil => simp
  | append_singleton payloads payload ih =>
      rw [runState_concat, List.flatMap_append, List.length_append]
      unfold payloadState
      split_ifs
      · omega
      · have hrecords := recordsState_length_le
          ((runState_sound cfg payloads).withLastLoop payload.loop_id)
          payload.loop_id payload.records id
        have hdeque : ({ runState cfg payloads with
            g_last_loop := payload.loop_id } : Server).deque id =
          (runState cfg payloads).deque id := rfl
        rw [hdeque] at hrecords
        simp only [List.flatMap_cons, List.flatMap_nil, List.append_nil]
        omega

end StockFeed
