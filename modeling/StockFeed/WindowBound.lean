import StockFeed.HistoryMachine
import StockFeed.StarvedRun

/-!
# When the windows stay within `PRICE_LIST_SIZE`

`allPriceOK` trims before a price is pushed, and only the deques it reaches
before the first short one.  A deque therefore stays within its limit as long
as no price arrives for a full window while some other window is still short.
That is sufficient and not necessary: a price too many may be trimmed again
before the callback returns.  On a stream which starves one stock the others
grow without limit.
-/

namespace StockFeed

/-- Every deque of the map holds at most a window. -/
def Server.Bounded (cfg : Config) (s : Server) : Prop :=
  ∀ id ∈ trackedIds cfg, (s.deque id).length ≤ cfg.priceListSize

/-- The record finds room: all windows are full, so that the oldest price goes
first, or its own window is not full yet. -/
def HasRoom (cfg : Config) (s : Server) (st : Stock) : Prop :=
  st.id_ ∈ trackedIds cfg →
    (∀ id ∈ trackedIds cfg, cfg.priceListSize ≤ (s.deque id).length) ∨
      (s.deque st.id_).length < cfg.priceListSize

/-- Every record which passes the done-loop filter finds room. -/
def RoomThroughout (cfg : Config) (payloads : List Payload) : Prop :=
  ∀ before payload after, payloads = before ++ payload :: after →
    (runState cfg before).g_last_done_loop ≠ payload.loop_id →
    ∀ first st rest, payload.records = first ++ st :: rest →
      HasRoom cfg
        (runState cfg (before ++ [{ payload with records := first }])) st

theorem Server.Bounded.fitsInt
    {cfg : Config} {s : Server} (hbounded : s.Bounded cfg) : s.FitsInt cfg := by
  intro id hid
  have hlength := hbounded id hid
  have hsize := cfg.priceListSize_lt
  omega

theorem Query.bounded
    {cfg : Config} {s s' : Server} {ok : Bool} (hquery : Query cfg s ok s')
    (hbounded : s.Bounded cfg) : s'.Bounded cfg := by
  intro id hid
  exact (hquery.length_le id).trans (hbounded id hid)

theorem Query.store_bounded
    {cfg : Config} {s s' : Server} {ok : Bool} {st : Stock}
    (hquery : Query cfg s ok s') (hsound : s.Sound cfg)
    (hbounded : s.Bounded cfg) (hroom : HasRoom cfg s st)
    (hid : st.id_ ∈ trackedIds cfg) (loop_id : Int32) :
    (s'.store ok loop_id st).Bounded cfg := by
  have hbounded' := hquery.bounded hbounded
  intro id hidt
  rw [Server.deque_store]
  by_cases heq : id = st.id_
  · subst heq
    have hlength := hbounded' _ hidt
    rw [if_pos rfl]
    cases ok with
    | true =>
        have hfull := hquery.full hsound.keys hsound.full _ hidt
        have hpos := cfg.priceListSize_pos
        simp only [if_true, List.length_append, List.length_tail,
          List.length_singleton]
        omega
    | false =>
        obtain ⟨stop, hstop, hshort, _⟩ := hquery.stopped rfl
        rw [hsound.keys] at hstop
        rw [sizeInt_of_lt (hbounded.fitsInt stop hstop)] at hshort
        have hlt : (s.deque st.id_).length < cfg.priceListSize := by
          rcases hroom hid with hall | hlt
          · have hfull := hall stop hstop
            omega
          · exact hlt
        have hle := hquery.length_le st.id_
        simp only [Bool.false_eq_true, if_false, List.length_append,
          List.length_singleton]
        omega
  · rw [if_neg heq]
    exact hbounded' id hidt

theorem RecordStep.bounded
    {cfg : Config} {loop_id : Int32} {st : Stock} {s s' : Server}
    (hstep : RecordStep cfg loop_id st s s') (hsound : s.Sound cfg)
    (hbounded : s.Bounded cfg) (hroom : HasRoom cfg s st) :
    s'.Bounded cfg := by
  cases hstep with
  | untracked _ => exact hbounded
  | stored hid hquery _ =>
      exact hquery.store_bounded hsound hbounded hroom hid loop_id
  | @batch ok ok' s₁ s₂ hid hquery _ hagain =>
      have hstored := hquery.store_bounded hsound hbounded hroom hid loop_id
      have hend : s₂.Bounded cfg := hagain.bounded hstored
      intro id hidt
      rw [Server.deque_finish]
      exact hend id hidt

theorem recordsState_bounded
    {cfg : Config} {loop_id : Int32} {records : List Stock} {s : Server}
    (hsound : s.Sound cfg) (hbounded : s.Bounded cfg)
    (hroom : ∀ first st rest, records = first ++ st :: rest →
      HasRoom cfg (recordsState cfg loop_id s first) st) :
    (recordsState cfg loop_id s records).Bounded cfg := by
  induction records generalizing s with
  | nil => exact hbounded
  | cons st rest ih =>
      have hstep := recordStep_recordState hsound loop_id st
      have hfirst : HasRoom cfg s st := hroom [] st rest rfl
      apply ih (hstep.sound hsound) (hstep.bounded hsound hbounded hfirst)
      intro first next more hsplit
      exact hroom (st :: first) next more (by rw [hsplit]; rfl)

theorem runState_bounded
    {cfg : Config} {payloads : List Payload}
    (hroom : RoomThroughout cfg payloads) :
    (runState cfg payloads).Bounded cfg := by
  induction payloads using List.reverseRecOn with
  | nil =>
      intro id _
      simp
  | append_singleton payloads payload ih =>
      have hbefore : (runState cfg payloads).Bounded cfg := by
        apply ih
        intro before middle after hsplit
        apply hroom before middle (after ++ [payload])
        rw [hsplit, List.append_assoc, List.cons_append]
      rw [runState_concat]
      unfold payloadState
      split_ifs with hdone
      · exact hbefore
      · apply recordsState_bounded
          ((runState_sound cfg payloads).withLastLoop payload.loop_id) hbefore
        intro first st rest hsplit
        have hpoint := hroom payloads payload [] rfl hdone first st rest hsplit
        rw [runState_concat, payloadState, if_neg hdone] at hpoint
        exact hpoint

/-- After every callback of a run whose records all find room, no deque is
longer than a window. -/
theorem windows_bounded_of_room
    (cfg : Config) (payloads : List Payload)
    (hroom : RoomThroughout cfg payloads) (callbacks : ℕ) :
    ∃ s, runPayloads cfg (payloads.take callbacks) = .ok () s ∧
      ∀ id prices, s.g_priceMap.find? id = some prices →
        prices.length ≤ cfg.priceListSize := by
  refine ⟨_, runPayloads_ok cfg _, ?_⟩
  intro id prices hfind
  have htake : RoomThroughout cfg (payloads.take callbacks) := by
    intro before payload after hsplit
    apply hroom before payload (after ++ payloads.drop callbacks)
    rw [← List.cons_append, ← List.append_assoc, ← hsplit,
      List.take_append_drop]
  have hid := OrderedMap.mem_keys_of_find? hfind
  rw [(runState_sound cfg _).keys] at hid
  rw [← Server.deque_eq_of_find? hfind]
  exact runState_bounded htake id hid

theorem roomThroughout_of_length_le
    {cfg : Config} {payloads : List Payload}
    (hshort : (payloads.flatMap Payload.records).length ≤ cfg.priceListSize) :
    RoomThroughout cfg payloads := by
  intro before payload after hsplit _ first st rest hrecords _
  right
  have hlength := runState_length_le cfg
    (before ++ [{ payload with records := first }]) st.id_
  subst hsplit
  simp only [List.flatMap_append, List.flatMap_cons, List.flatMap_nil,
    List.append_nil, List.length_append, hrecords,
    List.length_cons] at hshort hlength
  omega

theorem windows_bounded_firstGroup :
    let payloads : List Payload :=
      [⟨0, (List.range 20).map fun i => ⟨Int32.ofNat i, 100, 95, 110, 90⟩⟩]
    RoomThroughout Config.shipped payloads ∧
      ∃ s, runPayloads Config.shipped (payloads.take 1) = .ok () s ∧
        ∀ id prices, s.g_priceMap.find? id = some prices →
          prices.length ≤ Config.shipped.priceListSize := by
  intro payloads
  have hroom : RoomThroughout Config.shipped payloads :=
    roomThroughout_of_length_le (by decide)
  exact ⟨hroom, windows_bounded_of_room Config.shipped payloads hroom 1⟩

/-- Stock 1 alone, 205 datagrams of 20 records: its deque holds 4100 prices. -/
theorem windows_unbounded_when_starved :
    (∀ payload ∈ fill 205 20 1,
        payload.records.length = Config.shipped.groupStock) ∧
      ∃ s, runPayloads Config.shipped (fill 205 20 1) = .ok () s ∧
        ∃ prices, s.g_priceMap.find? (Int32.ofNat 1) = some prices ∧
          Config.shipped.priceListSize < prices.length := by
  refine ⟨fun payload hmem => fill_length hmem, _, runPayloads_ok _ _, _,
    Server.find?_eq_deque ?_, ?_⟩
  · rw [(runState_sound Config.shipped _).keys]
    exact mem_trackedIds.mpr ⟨1, by decide, rfl⟩
  · rw [length_deque_fill (by decide)]
    decide

end StockFeed
