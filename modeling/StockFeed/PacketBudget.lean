import StockFeed.CaptureBounds
import StockFeed.StarvedRun
import Mathlib.Algebra.Order.Floor.Div

/-!
# How many frames a call of coefficient costs

A callback stores at most `GROUP_STOCK` prices, and a latched server holds at
least `PRICE_LIST_SIZE` prices of every tracked stock.  Trimming and the
done-loop filter can only lose prices.  Hence the number of frames bounds the
prices in all windows, and `coefficient` has a minimal price in frames.

The bound holds for every memory content behind the packet pointers, also when
a callback reads behind the capture, and also for a run which ends in a fault.
-/

namespace StockFeed

open StateAction

/-- Prices in all windows together. -/
def Server.totalStored (cfg : Config) (s : Server) : ℕ :=
  ∑ id ∈ (trackedIds cfg).toFinset, (s.deque id).length

theorem card_trackedIds (cfg : Config) :
    (trackedIds cfg).toFinset.card = cfg.serverStock := by
  have hnodup : (trackedIds cfg).Nodup := (trackedIds_sorted cfg).imp ne_of_lt
  rw [List.toFinset_card_of_nodup hnodup, trackedIds, List.length_map,
    List.length_range]

theorem Query.totalStored_le
    {cfg : Config} {s s' : Server} {ok : Bool} (hquery : Query cfg s ok s') :
    s'.totalStored cfg ≤ s.totalStored cfg :=
  Finset.sum_le_sum fun id _ => hquery.length_le id

theorem Server.totalStored_store_le
    (cfg : Config) (ok : Bool) (loop_id : Int32) (st : Stock) (s : Server) :
    (s.store ok loop_id st).totalStored cfg ≤ s.totalStored cfg + 1 := by
  have hterm : ∀ id ∈ (trackedIds cfg).toFinset,
      ((s.store ok loop_id st).deque id).length ≤
        (s.deque id).length + if id = st.id_ then 1 else 0 := by
    intro id _
    have hgrow := Server.length_deque_store_le ok loop_id st s id
    split_ifs with heq
    · exact hgrow
    · rw [Server.deque_store, if_neg heq]
      omega
  have hone : (∑ id ∈ (trackedIds cfg).toFinset,
      if id = st.id_ then 1 else 0) ≤ 1 := by
    rw [Finset.sum_ite_eq']
    split_ifs <;> omega
  calc
    (s.store ok loop_id st).totalStored cfg
        ≤ ∑ id ∈ (trackedIds cfg).toFinset,
            ((s.deque id).length + if id = st.id_ then 1 else 0) :=
          Finset.sum_le_sum hterm
    _ = s.totalStored cfg + ∑ id ∈ (trackedIds cfg).toFinset,
            (if id = st.id_ then 1 else 0) := Finset.sum_add_distrib
    _ ≤ s.totalStored cfg + 1 := by omega

theorem RecordStep.totalStored_le
    {cfg : Config} {loop_id : Int32} {st : Stock} {s s' : Server}
    (hstep : RecordStep cfg loop_id st s s') :
    s'.totalStored cfg ≤ s.totalStored cfg + 1 := by
  cases hstep with
  | untracked _ => omega
  | @stored ok s₁ _ hquery _ =>
      have hgrow := Server.totalStored_store_le cfg ok loop_id st s₁
      have htrim := hquery.totalStored_le
      omega
  | @batch ok ok' s₁ s₂ _ hquery _ hagain =>
      have hgrow := Server.totalStored_store_le cfg ok loop_id st s₁
      have htrim := hquery.totalStored_le
      have hagainTrim : s₂.totalStored cfg ≤
          (s₁.store ok loop_id st).totalStored cfg := hagain.totalStored_le
      have hfinish : (s₂.finish ok' loop_id).totalStored cfg =
          s₂.totalStored cfg := by
        simp [Server.totalStored]
      omega

/-! ## Paid states -/

/-- A state whose windows are paid for by `n` records. -/
structure Server.Paid (cfg : Config) (n : ℕ) (s : Server) : Prop where
  sound : s.Sound cfg
  stored : s.totalStored cfg ≤ n
  waiting : s.g_ready = false → s.Waiting

theorem Server.Paid.mono
    {cfg : Config} {n m : ℕ} {s : Server} (hpaid : s.Paid cfg n)
    (hle : n ≤ m) : s.Paid cfg m :=
  ⟨hpaid.sound, hpaid.stored.trans hle, hpaid.waiting⟩

theorem Server.Paid.relog
    {cfg : Config} {n : ℕ} {s : Server} (hpaid : s.Paid cfg n)
    (file : List UInt8) (loop_id : Int32) :
    ({ s with g_pFile := file, g_last_loop := loop_id } : Server).Paid
      cfg n where
  sound := ⟨hpaid.sound.keys, hpaid.sound.full, hpaid.sound.counter⟩
  stored := hpaid.stored
  waiting := by
    intro hready
    have hwaiting := hpaid.waiting hready
    exact ⟨hready, hwaiting.done, hwaiting.silent⟩

theorem initial_paid (cfg : Config) : (Server.initial cfg).Paid cfg 0 where
  sound := Server.initial_sound cfg
  stored := by simp [Server.totalStored]
  waiting := fun _ => ⟨rfl, rfl, rfl⟩

theorem RecordStep.paid
    {cfg : Config} {loop_id : Int32} {st : Stock} {s s' : Server} {n : ℕ}
    (hstep : RecordStep cfg loop_id st s s') (hpaid : s.Paid cfg n) :
    s'.Paid cfg (n + 1) := by
  have hstored := hstep.totalStored_le
  have hbudget := hpaid.stored
  exact ⟨hstep.sound hpaid.sound, by omega,
    hstep.waiting_of_not_ready hpaid.waiting⟩

theorem decodeLoop_paid
    {cfg : Config} {s : Server} {n : ℕ} (hpaid : s.Paid cfg n)
    (loop_id : Int32) (group : ℕ) (packet : Packet) :
    (finalState (decodeLoop cfg loop_id group packet s)).Paid cfg
      (n + group) := by
  induction group generalizing packet s n with
  | zero => exact hpaid
  | succ group ih =>
      rw [decodeLoop]
      cases hdecode : Stock.decode packet with
      | none => exact hpaid.mono (by omega)
      | some st =>
          have hstep := recordStep_recordState hpaid.sound loop_id st
          have hrun := processRecord_ok hpaid.sound loop_id st
          change (finalState ((processRecord cfg loop_id st >>= fun _ =>
            decodeLoop cfg loop_id group (packet.drop 20)) s)).Paid cfg _
          rw [bind_apply_of_ok hrun]
          exact (ih (hstep.paid hpaid) (packet.drop 20)).mono (by omega)

theorem handlePayload_paid
    {cfg : Config} {s : Server} {n : ℕ} (hpaid : s.Paid cfg n)
    (packet : Packet) (length : Int32) :
    (finalState (handlePayload cfg packet length s)).Paid cfg
      (n + cfg.groupStock) := by
  rw [handlePayload]
  cases hloop : readLoopId packet with
  | none => exact hpaid.mono (by omega)
  | some loop_id =>
      change (finalState ((fwrite packet (sizeT length) >>= fun _ =>
        unlessDone loop_id (decodeLoop cfg loop_id cfg.groupStock
          (packet.drop 4))) s)).Paid cfg _
      rw [fwrite]
      cases hbytes : readBytes (sizeT length).toNat packet with
      | none => exact hpaid.mono (by omega)
      | some bytes =>
          change (finalState (unlessDone loop_id (decodeLoop cfg loop_id
            cfg.groupStock (packet.drop 4))
              { s with g_pFile := s.g_pFile ++ bytes })).Paid cfg _
          rw [unlessDone_apply]
          split_ifs
          · exact (hpaid.relog (s.g_pFile ++ bytes) s.g_last_loop).mono
              (by omega)
          · exact decodeLoop_paid
              (hpaid.relog (s.g_pFile ++ bytes) loop_id) loop_id _ _

theorem deliver_paid
    {cfg : Config} {s : Server} {n : ℕ} (hpaid : s.Paid cfg n)
    (frame : Frame) :
    (finalState (deliver cfg frame s)).Paid cfg (n + cfg.groupStock) := by
  rw [deliver_apply]
  cases hheaders : skipHeaders frame with
  | none => exact hpaid.mono (by omega)
  | some result =>
      cases result with
      | error line => exact hpaid.mono (by omega)
      | ok rest => exact handlePayload_paid hpaid rest.1 rest.2

theorem forM_deliver_paid
    {cfg : Config} {s : Server} {n : ℕ} (hpaid : s.Paid cfg n)
    (frames : List Frame) :
    (finalState (forM frames (deliver cfg) s)).Paid cfg
      (n + frames.length * cfg.groupStock) := by
  induction frames generalizing s n with
  | nil => exact hpaid.mono (by omega)
  | cons frame rest ih =>
      have hfirst := deliver_paid hpaid frame
      rw [forM_cons_apply, List.length_cons, Nat.succ_mul]
      cases hresult : deliver cfg frame s with
      | ok u s' =>
          rw [hresult] at hfirst
          exact (ih hfirst).mono (by omega)
      | error e s' =>
          rw [hresult] at hfirst
          exact hfirst.mono (by omega)

theorem runFrames_paid (cfg : Config) (frames : List Frame) :
    (finalState (runFrames cfg frames)).Paid cfg
      (frames.length * cfg.groupStock) := by
  have hpaid := forM_deliver_paid (initial_paid cfg) frames
  rw [Nat.zero_add] at hpaid
  exact hpaid

theorem Server.Paid.budget_le
    {cfg : Config} {s : Server} {n : ℕ} (hpaid : s.Paid cfg n)
    (hready : s.g_ready = true) :
    cfg.serverStock * cfg.priceListSize ≤ n := by
  have hfull := hpaid.sound.full hready
  calc
    cfg.serverStock * cfg.priceListSize
        = (trackedIds cfg).toFinset.card • cfg.priceListSize := by
          rw [card_trackedIds, smul_eq_mul]
    _ ≤ s.totalStored cfg :=
          Finset.card_nsmul_le_sum _ _ _ fun id hid =>
            hfull id (List.mem_toFinset.mp hid)
    _ ≤ n := hpaid.stored

/-- Before `coefficient` is called, every price of every window has arrived in
some frame; with the constants of the header the packet limit of `pcapServer`
is below that, so no traffic ever makes the server ready. -/
theorem coefficient_packet_budget :
    (∀ (cfg : Config) (frames : List Frame),
        coefficientCalls (finalState (runFrames cfg frames)).trace ≠ [] →
          cfg.serverStock * cfg.priceListSize ⌈/⌉ cfg.groupStock ≤
            frames.length) ∧
      ∀ frames : List Frame,
        (finalState (pcapServer Config.shipped frames)).Waiting := by
  constructor
  · intro cfg frames hcalls
    have hpaid := runFrames_paid cfg frames
    have hready : (finalState (runFrames cfg frames)).g_ready = true := by
      by_contra hnot
      rw [Bool.not_eq_true] at hnot
      exact hcalls (hpaid.waiting hnot).silent
    rw [ceilDiv_le_iff_le_mul cfg.groupStock_pos,
      Nat.mul_comm cfg.groupStock]
    exact hpaid.budget_le hready
  · intro frames
    have hpaid := runFrames_paid Config.shipped
      (frames.take Config.shipped.serverStockCount)
    have hlimit : (frames.take Config.shipped.serverStockCount).length ≤
        12500 := List.length_take_le _ _
    apply hpaid.waiting
    by_contra hready
    rw [Bool.not_eq_false] at hready
    have hbudget := hpaid.budget_le hready
    have hneeded : Config.shipped.serverStock * Config.shipped.priceListSize =
        1638400 := rfl
    have hgroup : Config.shipped.groupStock = 20 := rfl
    rw [hneeded, hgroup] at hbudget
    omega

theorem coefficient_packet_budget_pair :
    let frames : List Frame :=
      [⟨⟨0, 0⟩, 66, udpFrame (Payload.bytes ⟨0, [⟨0, 100, 95, 110, 90⟩]⟩)⟩,
        ⟨⟨0, 0⟩, 66, udpFrame (Payload.bytes ⟨0, [⟨1, 50, 48, 51, 47⟩]⟩)⟩]
    coefficientCalls (finalState (runFrames Config.pair frames)).trace ≠ [] ∧
      Config.pair.serverStock * Config.pair.priceListSize ⌈/⌉
        Config.pair.groupStock ≤ frames.length := by
  intro frames
  have hcalls : coefficientCalls
      (finalState (runFrames Config.pair frames)).trace ≠ [] := by
    decide
  exact ⟨hcalls, coefficient_packet_budget.1 Config.pair frames hcalls⟩

end StockFeed
