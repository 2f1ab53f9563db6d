import StockFeed.RecordStep

/-!
# The plain machine behind the price windows

What the server is for: keep every price of every tracked stock, and after
each full batch hand the last `PRICE_LIST_SIZE` prices of all stocks to
`coefficient` as soon as all histories are long enough.  The server reaches
the same outputs with windows that are trimmed lazily, in a query which may
stop half way, and with a readiness flag latched in one of two places.

`Simulates` relates a server to this machine: each window is an end segment of
the history, and it is the whole history unless it holds a full window.  The
relation survives every step as long as no deque outgrows the `int` that
`allPriceOK` stores its size in.
-/

namespace StockFeed

/-! ## The specification machine -/

/-- Unbounded histories, the number of records applied in the whole run, the
last completed loop and the outputs so far. -/
structure HistoryMachine where
  lastDone : Int32
  history : Int32 → List Int32
  applied : ℕ
  trace : List Action

namespace HistoryMachine

def initial : HistoryMachine where
  lastDone := -1
  history := fun _ => []
  applied := 0
  trace := []

/-- For each tracked id the last `PRICE_LIST_SIZE` prices, oldest first. -/
def windows (cfg : Config) (history : Int32 → List Int32) : StockPriceMap where
  entries := (trackedIds cfg).map fun id =>
    (id, (history id).rtake cfg.priceListSize)
  sorted := by
    simpa [Function.comp_def] using trackedIds_sorted cfg

def Complete (cfg : Config) (history : Int32 → List Int32) : Prop :=
  ∀ id ∈ trackedIds cfg, cfg.priceListSize ≤ (history id).length

instance (cfg : Config) (history : Int32 → List Int32) :
    Decidable (Complete cfg history) :=
  inferInstanceAs (Decidable (∀ id ∈ trackedIds cfg, _))

def append (history : Int32 → List Int32) (st : Stock) : Int32 → List Int32 :=
  Function.update history st.id_ (history st.id_ ++ [st.close_price_])

def store (loop_id : Int32) (st : Stock) (machine : HistoryMachine) :
    HistoryMachine :=
  { machine with
    history := append machine.history st
    applied := machine.applied + 1
    trace := machine.trace ++ [.applied loop_id st] }

def endBatch (cfg : Config) (loop_id : Int32) (machine : HistoryMachine) :
    HistoryMachine :=
  if Complete cfg machine.history then
    { machine with
      lastDone := loop_id
      trace := machine.trace ++ [.serverGetAll,
        .coefficient loop_id (windows cfg machine.history)] }
  else
    { machine with trace := machine.trace ++ [.serverGetAll] }

def record (cfg : Config) (loop_id : Int32) (machine : HistoryMachine)
    (st : Stock) : HistoryMachine :=
  if st.id_ ∈ trackedIds cfg then
    if (machine.applied + 1) % cfg.serverStock = 0 then
      (machine.store loop_id st).endBatch cfg loop_id
    else machine.store loop_id st
  else machine

def records (cfg : Config) (loop_id : Int32) (machine : HistoryMachine)
    (sts : List Stock) : HistoryMachine :=
  sts.foldl (record cfg loop_id) machine

def payload (cfg : Config) (machine : HistoryMachine) (p : Payload) :
    HistoryMachine :=
  if machine.lastDone = p.loop_id then machine
  else records cfg p.loop_id machine p.records

def run (cfg : Config) (payloads : List Payload) : HistoryMachine :=
  payloads.foldl (payload cfg) initial

end HistoryMachine

def closesOf (id : Int32) (records : List Stock) : List Int32 :=
  (records.filter fun st => st.id_ = id).map Stock.close_price_

theorem closesOf_append (id : Int32) (first second : List Stock) :
    closesOf id (first ++ second) = closesOf id first ++ closesOf id second := by
  simp [closesOf]

/-! ## The simulation relation -/

/-- Every deque is short enough for `int size`. -/
def Server.FitsInt (cfg : Config) (s : Server) : Prop :=
  ∀ id ∈ trackedIds cfg, (s.deque id).length < 2 ^ 31

/-- Windows as the server keeps them for given histories. -/
structure Server.Windowed (cfg : Config) (s : Server)
    (history : Int32 → List Int32) : Prop where
  suffix : ∀ id ∈ trackedIds cfg, s.deque id <:+ history id
  wholeOrFull : ∀ id ∈ trackedIds cfg, s.deque id = history id ∨
    cfg.priceListSize ≤ (s.deque id).length
  latched : s.g_ready = true → ∀ id ∈ trackedIds cfg,
    (s.deque id).length = cfg.priceListSize

structure Simulates (cfg : Config) (s : Server) (machine : HistoryMachine) :
    Prop where
  done : s.g_last_done_loop = machine.lastDone
  trace : s.trace = machine.trace
  counter : s.g_current_stocks = machine.applied % cfg.serverStock
  windowed : s.Windowed cfg machine.history

theorem eq_rtake_of_suffix
    {prices history : List Int32} {n : ℕ} (hsuffix : prices <:+ history)
    (hlength : prices.length = n) : prices = history.rtake n := by
  subst hlength
  exact List.suffix_iff_eq_drop.mp hsuffix

theorem initial_simulates (cfg : Config) :
    Simulates cfg (Server.initial cfg) HistoryMachine.initial where
  done := rfl
  trace := rfl
  counter := by simp [Server.initial, HistoryMachine.initial]
  windowed := by
    constructor
    · simp [HistoryMachine.initial]
    · simp [HistoryMachine.initial]
    · simp [Server.initial]

/-! ## One query -/

theorem Query.windowed
    {cfg : Config} {s s' : Server} {ok : Bool}
    {history : Int32 → List Int32} (hquery : Query cfg s ok s')
    (hkeys : s.g_priceMap.keys = trackedIds cfg) (hfits : s.FitsInt cfg)
    (hwindowed : s.Windowed cfg history) : s'.Windowed cfg history := by
  refine ⟨?_, ?_, ?_⟩
  · intro id hid
    exact (hquery.suffix id).trans (hwindowed.suffix id hid)
  · intro id hid
    rcases hquery.kept id with heq | ⟨hsize, heq⟩
    · rw [heq]
      exact hwindowed.wholeOrFull id hid
    · right
      rw [heq]
      exact priceListSize_le_trim_length hsize
  · intro hready' id hid
    rw [hquery.ready_eq] at hready'
    subst hready'
    cases hready : s.g_ready with
    | true =>
        rw [hquery.deque_latched hready]
        exact hwindowed.latched hready id hid
    | false =>
        have hpassed := hquery.passed hready rfl id (by rw [hkeys]; exact hid)
        have hlength := hpassed.1
        rw [sizeInt_of_lt (hfits id hid)] at hlength
        rw [hpassed.2, trim_eq_rtake (hfits id hid), List.rtake,
          List.length_drop]
        omega

theorem Query.ok_iff_complete
    {cfg : Config} {s s' : Server} {ok : Bool}
    {history : Int32 → List Int32} (hquery : Query cfg s ok s')
    (hkeys : s.g_priceMap.keys = trackedIds cfg) (hfits : s.FitsInt cfg)
    (hwindowed : s.Windowed cfg history) :
    ok = true ↔ HistoryMachine.Complete cfg history := by
  constructor
  · intro hok id hid
    subst hok
    have hafter := (hquery.windowed hkeys hfits hwindowed)
    have hlength := hafter.latched hquery.ready_eq id hid
    rw [← hlength]
    exact (hafter.suffix id hid).length_le
  · intro hcomplete
    by_contra hok
    rw [Bool.not_eq_true] at hok
    obtain ⟨id, hid, hsize, _⟩ := hquery.stopped hok
    rw [hkeys] at hid
    rw [sizeInt_of_lt (hfits id hid)] at hsize
    rcases hwindowed.wholeOrFull id hid with hwhole | hfull
    · have hlong := hcomplete id hid
      rw [← hwhole] at hlong
      omega
    · omega

theorem g_priceMap_eq_windows
    {cfg : Config} {s : Server} {history : Int32 → List Int32}
    (hkeys : s.g_priceMap.keys = trackedIds cfg)
    (hwindowed : s.Windowed cfg history) (hready : s.g_ready = true) :
    s.g_priceMap = HistoryMachine.windows cfg history := by
  have hwkeys : (HistoryMachine.windows cfg history).keys =
      trackedIds cfg := by
    simp [OrderedMap.keys, HistoryMachine.windows, Function.comp_def]
  apply OrderedMap.ext_find?
  intro id
  by_cases hid : id ∈ trackedIds cfg
  · have hfind : (HistoryMachine.windows cfg history).find? id =
        some ((history id).rtake cfg.priceListSize) := by
      rw [OrderedMap.find?_eq_some_iff]
      exact List.mem_map.mpr ⟨id, hid, rfl⟩
    rw [hfind, Server.find?_eq_deque (by rw [hkeys]; exact hid)]
    exact congrArg some (eq_rtake_of_suffix (hwindowed.suffix id hid)
      (hwindowed.latched hready id hid))
  · have hleft : s.g_priceMap.find? id = none := by
      rw [← Option.not_isSome_iff_eq_none, OrderedMap.find?_isSome_iff, hkeys]
      exact hid
    rw [hleft, eq_comm, ← Option.not_isSome_iff_eq_none,
      OrderedMap.find?_isSome_iff, hwkeys]
    exact hid

/-! ## One record -/

theorem Server.Windowed.store
    {cfg : Config} {s : Server} {history : Int32 → List Int32} {ok : Bool}
    (hwindowed : s.Windowed cfg history) (hready : s.g_ready = ok)
    (loop_id : Int32) (st : Stock) :
    (s.store ok loop_id st).Windowed cfg (HistoryMachine.append history st) := by
  have hpos := cfg.priceListSize_pos
  refine ⟨?_, ?_, ?_⟩
  · intro id hid
    rw [Server.deque_store]
    by_cases heq : id = st.id_
    · subst heq
      simp only [if_true, HistoryMachine.append, Function.update_self]
      have hbase : (if ok then (s.deque st.id_).tail else s.deque st.id_) <:+
          history st.id_ := by
        split_ifs
        · exact (List.tail_suffix _).trans (hwindowed.suffix _ hid)
        · exact hwindowed.suffix _ hid
      rcases hbase with ⟨front, hfront⟩
      exact ⟨front, by rw [← List.append_assoc, hfront]⟩
    · rw [if_neg heq, HistoryMachine.append, Function.update_of_ne heq]
      exact hwindowed.suffix id hid
  · intro id hid
    rw [Server.deque_store]
    by_cases heq : id = st.id_
    · subst heq
      simp only [if_true, HistoryMachine.append, Function.update_self]
      cases ok with
      | true =>
          right
          have hlength := hwindowed.latched hready _ hid
          simp only [if_true, List.length_append, List.length_tail,
            List.length_singleton]
          omega
      | false =>
          simp only [Bool.false_eq_true, if_false]
          rcases hwindowed.wholeOrFull _ hid with hwhole | hfull
          · exact Or.inl (by rw [hwhole])
          · right
            rw [List.length_append]
            omega
    · rw [if_neg heq, HistoryMachine.append, Function.update_of_ne heq]
      exact hwindowed.wholeOrFull id hid
  · intro hready' id hid
    have hok : ok = true := hready.symm.trans hready'
    subst hok
    have hlength := hwindowed.latched hready id hid
    rw [Server.deque_store]
    by_cases heq : id = st.id_
    · subst heq
      simp only [if_true, List.length_append, List.length_tail,
        List.length_singleton]
      omega
    · rw [if_neg heq]
      exact hlength

theorem succ_mod (n k : ℕ) (hk : 0 < k) :
    (n + 1) % k = if n % k + 1 = k then 0 else n % k + 1 := by
  have hlt := Nat.mod_lt n hk
  split_ifs with hwrap
  · rw [Nat.add_mod, ← Nat.mod_add_mod]
    simp [hwrap]
  · rw [← Nat.mod_add_mod, Nat.mod_eq_of_lt (by omega)]

/-- A query which leaves every size representable started from
representable sizes, at most one of them just grown to `2 ^ 31`: such a size
reads negative and its deque is left alone. -/
theorem Query.fitsInt_before
    {cfg : Config} {s s' : Server} {ok : Bool} (hquery : Query cfg s ok s')
    (hnear : ∀ id ∈ trackedIds cfg, (s.deque id).length ≤ 2 ^ 31)
    (hfits : s'.FitsInt cfg) : s.FitsInt cfg := by
  intro id hid
  have hle := hnear id hid
  have hafter := hfits id hid
  by_contra hnot
  have hlength : (s.deque id).length = 2 ^ 31 := by omega
  have hnegative : sizeInt (s.deque id) = -2 ^ 31 := by
    unfold sizeInt
    rw [hlength]
    decide
  rcases hquery.kept id with heq | ⟨hsize, _⟩
  · rw [heq] at hafter
    omega
  · rw [hnegative] at hsize
    omega

theorem Query.fitsInt_stored
    {cfg : Config} {s s₁ s₂ : Server} {ok ok' : Bool} {loop_id : Int32}
    {st : Stock} (hquery : Query cfg s ok s₁) (hfits : s.FitsInt cfg)
    (hagain : Query cfg (s₁.store ok loop_id st).announce ok' s₂)
    (hfits₂ : s₂.FitsInt cfg) :
    (s₁.store ok loop_id st).announce.FitsInt cfg := by
  apply hagain.fitsInt_before _ hfits₂
  intro id hid
  have hgrow := Server.length_deque_store_le ok loop_id st s₁ id
  have htrim := hquery.length_le id
  have hold := hfits id hid
  rw [Server.deque_announce]
  omega

theorem Server.Windowed.announce
    {cfg : Config} {s : Server} {history : Int32 → List Int32}
    (hwindowed : s.Windowed cfg history) : s.announce.Windowed cfg history :=
  ⟨hwindowed.suffix, hwindowed.wholeOrFull, hwindowed.latched⟩

theorem Server.Windowed.finish
    {cfg : Config} {s : Server} {history : Int32 → List Int32}
    (hwindowed : s.Windowed cfg history) (ok : Bool) (loop_id : Int32) :
    (s.finish ok loop_id).Windowed cfg history := by
  refine ⟨?_, ?_, ?_⟩
  · simpa using hwindowed.suffix
  · simpa using hwindowed.wholeOrFull
  · simpa using hwindowed.latched

/-- The query at the end of a batch and what follows it, against `endBatch`. -/
theorem Query.simulates_endBatch
    {cfg : Config} {s s' : Server} {ok : Bool} {machine : HistoryMachine}
    (hquery : Query cfg s ok s') (hkeys : s.g_priceMap.keys = trackedIds cfg)
    (hfits : s.FitsInt cfg) (hwindowed : s.Windowed cfg machine.history)
    (hdone : s.g_last_done_loop = machine.lastDone)
    (htrace : s.trace = machine.trace ++ [.serverGetAll])
    (hcounter : machine.applied % cfg.serverStock = 0) (loop_id : Int32) :
    Simulates cfg (s'.finish ok loop_id)
      (machine.endBatch cfg loop_id) := by
  have hend := hquery.windowed hkeys hfits hwindowed
  have hfinish := hend.finish ok loop_id
  have hiff := hquery.ok_iff_complete hkeys hfits hwindowed
  have hdone' : s'.g_last_done_loop = machine.lastDone := by
    rw [hquery.frame]
    exact hdone
  have htrace' : s'.trace = machine.trace ++ [.serverGetAll] := by
    rw [hquery.frame]
    exact htrace
  rw [HistoryMachine.endBatch]
  by_cases hcomplete : HistoryMachine.Complete cfg machine.history
  · have hok := hiff.mpr hcomplete
    subst hok
    have hmap := g_priceMap_eq_windows (hquery.keys.trans hkeys) hend
      hquery.ready_eq
    rw [if_pos hcomplete]
    refine ⟨rfl, ?_, ?_, hfinish⟩
    · simp only [Server.finish, if_true]
      rw [htrace', hmap]
      simp
    · rw [Server.g_current_stocks_finish]
      exact hcounter.symm
  · have hok : ok = false := by
      rw [← Bool.not_eq_true, hiff]
      exact hcomplete
    subst hok
    rw [if_neg hcomplete]
    exact ⟨hdone', htrace', hcounter.symm, hfinish⟩

theorem RecordStep.simulates
    {cfg : Config} {loop_id : Int32} {st : Stock} {s s' : Server}
    {machine : HistoryMachine} (hstep : RecordStep cfg loop_id st s s')
    (hsound : s.Sound cfg) (hfits : s.FitsInt cfg) (hfits' : s'.FitsInt cfg)
    (hsim : Simulates cfg s machine) :
    Simulates cfg s' (HistoryMachine.record cfg loop_id machine st) := by
  have hmod := succ_mod machine.applied cfg.serverStock cfg.serverStock_pos
  rw [← hsim.counter] at hmod
  cases hstep with
  | untracked hid =>
      rw [HistoryMachine.record, if_neg hid]
      exact hsim
  | @stored ok s₁ hid hquery hcount =>
      have hmid := (hquery.windowed hsound.keys hfits hsim.windowed).store
        hquery.ready_eq loop_id st
      rw [if_neg hcount] at hmod
      rw [HistoryMachine.record, if_pos hid, hmod, if_neg (Nat.succ_ne_zero _)]
      refine ⟨?_, ?_, ?_, hmid⟩
      · rw [hquery.frame]
        exact hsim.done
      · rw [hquery.frame]
        exact congrArg (· ++ _) hsim.trace
      · rw [hquery.frame]
        exact hmod.symm
  | @batch ok ok' s₁ s₂ hid hquery hcount hagain =>
      have hmid := (hquery.windowed hsound.keys hfits hsim.windowed).store
        hquery.ready_eq loop_id st
      have hfits₂ : s₂.FitsInt cfg := by
        intro id hidt
        simpa using hfits' id hidt
      rw [if_pos hcount] at hmod
      rw [HistoryMachine.record, if_pos hid, if_pos hmod]
      apply hagain.simulates_endBatch (hquery.store_keys hsound hid loop_id)
        (hquery.fitsInt_stored hfits hagain hfits₂) hmid.announce
      · simp only [Server.announce, Server.store]
        rw [hquery.frame]
        exact hsim.done
      · simp only [Server.announce, Server.store, HistoryMachine.store]
        rw [hquery.frame, ← hsim.trace]
      · exact hmod

end StockFeed
