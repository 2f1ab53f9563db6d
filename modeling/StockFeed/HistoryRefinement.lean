import StockFeed.HistoryMachine
import StockFeed.StarvedRun

/-!
# The server refines the history machine

The step simulation of `HistoryMachine` is carried along whole runs.  Faults
never occur and the key set never changes, on any traffic.  The outputs agree
with the history machine on every run in which no deque reaches `2 ^ 31`
entries; a run of about two billion records for one stock shows that this
condition cannot be dropped.  It is sufficient only: a deque which `allPriceOK`
does not reach may be longer.
-/

namespace StockFeed

/-! ## Whole runs -/

/-- Every state the run goes through between two records has deques whose
sizes fit `int`. -/
def FitsThroughout (cfg : Config) (payloads : List Payload) : Prop :=
  ∀ before payload after, payloads = before ++ payload :: after → ∀ j,
    (runState cfg (before ++
      [{ payload with records := payload.records.take j }])).FitsInt cfg

theorem recordsState_simulates
    {cfg : Config} {loop_id : Int32} {records : List Stock} {s : Server}
    {machine : HistoryMachine} (hsound : s.Sound cfg)
    (hfits : ∀ j, (recordsState cfg loop_id s (records.take j)).FitsInt cfg)
    (hsim : Simulates cfg s machine) :
    Simulates cfg (recordsState cfg loop_id s records)
      (HistoryMachine.records cfg loop_id machine records) := by
  induction records generalizing s machine with
  | nil => exact hsim
  | cons st rest ih =>
      have hstep := recordStep_recordState hsound loop_id st
      have hbefore : s.FitsInt cfg := hfits 0
      have hafter : (recordState cfg loop_id s st).FitsInt cfg := hfits 1
      exact ih (hstep.sound hsound) (fun j => hfits (j + 1))
        (hstep.simulates hsound hbefore hafter hsim)

theorem runState_simulates
    {cfg : Config} {payloads : List Payload}
    (hfits : FitsThroughout cfg payloads) :
    Simulates cfg (runState cfg payloads) (HistoryMachine.run cfg payloads) := by
  induction payloads using List.reverseRecOn with
  | nil => exact initial_simulates cfg
  | append_singleton payloads payload ih =>
      have hbefore : FitsThroughout cfg payloads := by
        intro before middle after hsplit
        apply hfits before middle (after ++ [payload])
        rw [hsplit, List.append_assoc, List.cons_append]
      have hsim := ih hbefore
      have hrun : HistoryMachine.run cfg (payloads ++ [payload]) =
          HistoryMachine.payload cfg (HistoryMachine.run cfg payloads)
            payload := by
        unfold HistoryMachine.run
        rw [List.foldl_append]
        rfl
      rw [hrun, runState_concat]
      unfold payloadState HistoryMachine.payload
      rw [← hsim.done]
      split_ifs with hdone
      · exact hsim
      · apply recordsState_simulates
          ((runState_sound cfg payloads).withLastLoop payload.loop_id)
        · intro j
          have hpoint := hfits payloads payload [] rfl j
          rw [runState_concat, payloadState, if_neg hdone] at hpoint
          exact hpoint
        · exact ⟨hsim.done, hsim.trace, hsim.counter,
            ⟨hsim.windowed.suffix, hsim.windowed.wholeOrFull,
              hsim.windowed.latched⟩⟩

/-- The server and the history machine produce the same outputs at the same
points of the record stream.  Absence of faults (no `pop_front` on an empty
deque) and the constant key set need no condition. -/
theorem runPayloads_refines_historyMachine
    (cfg : Config) (payloads : List Payload) :
    ∃ s, runPayloads cfg payloads = .ok () s ∧
      s.g_priceMap.keys = trackedIds cfg ∧
      (FitsThroughout cfg payloads →
        s.trace = (HistoryMachine.run cfg payloads).trace ∧
        s.g_last_done_loop = (HistoryMachine.run cfg payloads).lastDone ∧
        s.g_current_stocks =
          (HistoryMachine.run cfg payloads).applied % cfg.serverStock ∧
        ∀ id ∈ trackedIds cfg,
          s.deque id <:+ (HistoryMachine.run cfg payloads).history id ∧
          (s.deque id = (HistoryMachine.run cfg payloads).history id ∨
            cfg.priceListSize ≤ (s.deque id).length)) := by
  refine ⟨runState cfg payloads, runPayloads_ok cfg payloads,
    (runState_sound cfg payloads).keys, ?_⟩
  intro hfits
  have hsim := runState_simulates hfits
  exact ⟨hsim.trace, hsim.done, hsim.counter, fun id hid =>
    ⟨hsim.windowed.suffix id hid, hsim.windowed.wholeOrFull id hid⟩⟩

/-! ## Short runs fit -/

theorem fitsThroughout_of_length_lt
    {cfg : Config} {payloads : List Payload}
    (hshort : (payloads.flatMap Payload.records).length < 2 ^ 31) :
    FitsThroughout cfg payloads := by
  intro before payload after hsplit j id _
  have hlength := runState_length_le cfg
    (before ++ [{ payload with records := payload.records.take j }]) id
  have htake : (payload.records.take j).length ≤ payload.records.length := by
    rw [List.length_take]
    omega
  subst hsplit
  simp only [List.flatMap_append, List.flatMap_cons, List.flatMap_nil,
    List.append_nil, List.length_append] at hshort hlength
  omega

theorem runPayloads_refines_historyMachine_onePayload :
    let payloads : List Payload :=
      [⟨0, List.replicate 20 ⟨3, 100, 95, 110, 90⟩⟩]
    FitsThroughout Config.shipped payloads ∧
      ∃ s, runPayloads Config.shipped payloads = .ok () s ∧
        s.trace = (HistoryMachine.run Config.shipped payloads).trace := by
  intro payloads
  have hfits : FitsThroughout Config.shipped payloads :=
    fitsThroughout_of_length_lt (by simp [payloads])
  rcases runPayloads_refines_historyMachine Config.shipped payloads with
    ⟨s, hrun, _, hrefines⟩
  exact ⟨hfits, s, hrun, (hrefines hfits).1⟩

/-! ## The condition cannot be dropped -/

namespace HistoryMachine

/-- A machine which has seen exactly `seen` and has not called `coefficient`:
nothing was ignored, so histories and counter are those of the input. -/
structure Counted (cfg : Config) (machine : HistoryMachine)
    (seen : List Stock) : Prop where
  lastDone : machine.lastDone = -1
  history : ∀ id ∈ trackedIds cfg, machine.history id = closesOf id seen
  applied : machine.applied =
    (seen.filter fun st => st.id_ ∈ trackedIds cfg).length

theorem append_eq_closesOf
    {cfg : Config} {machine : HistoryMachine} {seen : List Stock}
    (hcounted : machine.Counted cfg seen) (st : Stock) :
    ∀ id ∈ trackedIds cfg,
      append machine.history st id = closesOf id (seen ++ [st]) := by
  intro id hid
  rw [closesOf_append, ← hcounted.history id hid]
  by_cases heq : id = st.id_
  · subst heq
    simp [append, closesOf]
  · simp [append, Function.update_of_ne heq, closesOf, Ne.symm heq]

theorem store_counted
    {cfg : Config} {machine : HistoryMachine} {seen : List Stock} {st : Stock}
    (hcounted : machine.Counted cfg seen) (hid : st.id_ ∈ trackedIds cfg)
    (loop_id : Int32) :
    (machine.store loop_id st).Counted cfg (seen ++ [st]) := by
  refine ⟨hcounted.lastDone, append_eq_closesOf hcounted st, ?_⟩
  simp [store, hcounted.applied, hid]

theorem record_counted
    {cfg : Config} {loop_id : Int32} {machine : HistoryMachine}
    {seen : List Stock} {st : Stock} (hcounted : machine.Counted cfg seen)
    (hsilent : coefficientCalls (record cfg loop_id machine st).trace = []) :
    (record cfg loop_id machine st).Counted cfg (seen ++ [st]) := by
  unfold record at hsilent ⊢
  by_cases hid : st.id_ ∈ trackedIds cfg
  · have hstore := store_counted hcounted hid loop_id
    rw [if_pos hid] at hsilent ⊢
    split_ifs at hsilent ⊢
    · unfold endBatch at hsilent ⊢
      split_ifs at hsilent ⊢
      · simp [coefficientCalls] at hsilent
      · exact ⟨hstore.lastDone, hstore.history, hstore.applied⟩
    · exact hstore
  · rw [if_neg hid]
    refine ⟨hcounted.lastDone, ?_, ?_⟩
    · intro id hidt
      have hne : st.id_ ≠ id := by
        intro heq
        exact hid (by rw [heq]; exact hidt)
      rw [hcounted.history id hidt]
      simp [closesOf, hne]
    · simp [hcounted.applied, hid]

theorem trace_prefix_record
    (cfg : Config) (loop_id : Int32) (machine : HistoryMachine) (st : Stock) :
    machine.trace <+: (record cfg loop_id machine st).trace := by
  unfold record endBatch store
  split_ifs <;> simp [List.append_assoc]

theorem coefficientCalls_eq_nil_mono
    {first whole : List Action} (hfront : first <+: whole)
    (hsilent : coefficientCalls whole = []) : coefficientCalls first = [] := by
  rcases hfront with ⟨rest, rfl⟩
  rw [coefficientCalls_append] at hsilent
  exact (List.append_eq_nil_iff.mp hsilent).1

theorem records_counted
    {cfg : Config} {loop_id : Int32} {machine : HistoryMachine}
    {seen : List Stock} {sts : List Stock}
    (hcounted : machine.Counted cfg seen)
    (hsilent : coefficientCalls (records cfg loop_id machine sts).trace = []) :
    (records cfg loop_id machine sts).Counted cfg (seen ++ sts) := by
  induction sts using List.reverseRecOn with
  | nil =>
      rw [List.append_nil]
      exact hcounted
  | append_singleton sts st ih =>
      have hconcat : records cfg loop_id machine (sts ++ [st]) =
          record cfg loop_id (records cfg loop_id machine sts) st := by
        unfold records
        rw [List.foldl_append]
        rfl
      rw [hconcat] at hsilent ⊢
      rw [← List.append_assoc]
      exact record_counted (ih (coefficientCalls_eq_nil_mono
        (trace_prefix_record _ _ _ _) hsilent)) hsilent

theorem trace_prefix_payload
    (cfg : Config) (machine : HistoryMachine) (p : Payload) :
    machine.trace <+: (payload cfg machine p).trace := by
  unfold payload
  split_ifs
  · exact List.prefix_rfl
  · have hrecords : ∀ sts, machine.trace <+:
        (records cfg p.loop_id machine sts).trace := by
      intro sts
      induction sts using List.reverseRecOn with
      | nil => exact List.prefix_rfl
      | append_singleton sts st ih =>
          rw [records, List.foldl_append]
          exact ih.trans (trace_prefix_record cfg p.loop_id _ st)
    exact hrecords p.records

theorem run_concat (cfg : Config) (payloads : List Payload) (p : Payload) :
    run cfg (payloads ++ [p]) = payload cfg (run cfg payloads) p := by
  unfold run
  rw [List.foldl_append]
  rfl

theorem run_counted
    {cfg : Config} {payloads : List Payload}
    (hloops : ∀ p ∈ payloads, p.loop_id ≠ -1)
    (hsilent : coefficientCalls (run cfg payloads).trace = []) :
    (run cfg payloads).Counted cfg (payloads.flatMap Payload.records) := by
  induction payloads using List.reverseRecOn with
  | nil =>
      refine ⟨rfl, ?_, rfl⟩
      intro id _
      simp [run, initial, closesOf]
  | append_singleton payloads p ih =>
      have hflat : (payloads ++ [p]).flatMap Payload.records =
          payloads.flatMap Payload.records ++ p.records := by
        simp
      rw [run_concat] at hsilent ⊢
      have hcounted := ih
        (fun earlier hearlier => hloops earlier (by simp [hearlier]))
        (coefficientCalls_eq_nil_mono
          (trace_prefix_payload cfg _ p) hsilent)
      have hdone : (run cfg payloads).lastDone ≠ p.loop_id := by
        rw [hcounted.lastDone]
        exact (hloops p (by simp)).symm
      rw [hflat]
      unfold payload at hsilent ⊢
      rw [if_neg hdone] at hsilent ⊢
      exact records_counted hcounted hsilent

/-- If the last record of a run is tracked, ends a batch and leaves every
history long enough, the machine has called `coefficient` by then. -/
theorem run_calls_ne_nil
    {cfg : Config} {whole payloads : List Payload} {loop_id : Int32}
    {sts : List Stock} {st : Stock}
    (hwhole : whole = payloads ++ [⟨loop_id, sts ++ [st]⟩])
    (hloops : ∀ p ∈ whole, p.loop_id ≠ -1)
    (hid : st.id_ ∈ trackedIds cfg)
    (hcount : ((whole.flatMap Payload.records).filter
      fun st => st.id_ ∈ trackedIds cfg).length % cfg.serverStock = 0)
    (hlong : ∀ id ∈ trackedIds cfg, cfg.priceListSize ≤
      (closesOf id (whole.flatMap Payload.records)).length) :
    coefficientCalls (run cfg whole).trace ≠ [] := by
  subst hwhole
  have hflat : (payloads ++ [(⟨loop_id, sts ++ [st]⟩ : Payload)]).flatMap
      Payload.records =
        (payloads ++ [(⟨loop_id, sts⟩ : Payload)]).flatMap
          Payload.records ++ [st] := by
    simp
  rw [hflat] at hcount hlong
  intro hsilent
  have hsplit : run cfg (payloads ++ [⟨loop_id, sts ++ [st]⟩]) =
      record cfg loop_id (run cfg (payloads ++ [⟨loop_id, sts⟩])) st := by
    have hbefore : coefficientCalls (run cfg payloads).trace = [] := by
      rw [run_concat] at hsilent
      exact coefficientCalls_eq_nil_mono
        (trace_prefix_payload cfg _ _) hsilent
    have hdone : (run cfg payloads).lastDone ≠ loop_id := by
      rw [(run_counted (fun p hp => hloops p (by simp [hp])) hbefore).lastDone]
      exact (hloops ⟨loop_id, sts ++ [st]⟩ (by simp)).symm
    rw [run_concat, run_concat, payload, payload, if_neg hdone, if_neg hdone,
      records, List.foldl_append]
    rfl
  rw [hsplit] at hsilent
  have hloops' : ∀ p ∈ payloads ++ [⟨loop_id, sts⟩], p.loop_id ≠ -1 := by
    intro p hp
    rcases List.mem_append.mp hp with hp | hp
    · exact hloops p (by simp [hp])
    · rw [List.mem_singleton] at hp
      subst hp
      exact hloops ⟨loop_id, sts ++ [st]⟩ (by simp)
  have hcounted := run_counted hloops' (coefficientCalls_eq_nil_mono
    (trace_prefix_record _ _ _ _) hsilent)
  have hstore := store_counted hcounted hid loop_id
  have hmod : ((run cfg (payloads ++ [⟨loop_id, sts⟩])).applied + 1) %
      cfg.serverStock = 0 := by
    rw [← hcount, ← hstore.applied]
    rfl
  have hcomplete : Complete cfg ((run cfg
      (payloads ++ [⟨loop_id, sts⟩])).store loop_id st).history := by
    intro id hidt
    rw [hstore.history id hidt]
    exact hlong id hidt
  rw [record, if_pos hid, if_pos hmod, endBatch, if_pos hcomplete] at hsilent
  simp [coefficientCalls] at hsilent

end HistoryMachine

/-- A stream which starves stock 0 until the deque of stock 1 has outgrown
`int`, and then fills every window. -/
def overflowRun : List Payload :=
  fill 107374200 20 1 ++ (List.range 400).flatMap (fill 205 20)

theorem length_flatMap_fills (n rounds group : ℕ) :
    (((List.range n).flatMap (fill rounds group)).flatMap
      Payload.records).length = n * (rounds * group) := by
  induction n with
  | zero => simp
  | succ n ih =>
      rw [List.range_succ, List.flatMap_append, List.flatMap_append,
        List.length_append, ih, List.flatMap_singleton, length_flatMap_fill]
      ring

theorem overflowRun_silent :
    coefficientCalls (runState Config.shipped overflowRun).trace = [] := by
  have hone : Int32.ofNat 1 ∈ trackedIds Config.shipped :=
    mem_trackedIds.mpr ⟨1, by decide, rfl⟩
  have htwo : 1 < Config.shipped.serverStock := by decide
  have hstuck : (runState Config.shipped (fill 107374200 20 1)).Stuck
      Config.shipped (Int32.ofNat 1) :=
    runState_fill_stuck htwo (by norm_num) (by norm_num)
  unfold overflowRun
  rw [runState_append]
  apply (foldl_payloadState_stuck hone hstuck _).silent
  rw [length_deque_fill htwo, length_flatMap_fills]
  norm_num

theorem overflowRun_records :
    ∀ payload ∈ overflowRun, payload.loop_id = 0 ∧
      ∀ st ∈ payload.records, st.id_ ∈ trackedIds Config.shipped := by
  intro payload hmem
  rcases List.mem_append.mp hmem with hfirst | hsecond
  · refine ⟨fill_loop_id hfirst, ?_⟩
    intro st hst
    exact mem_trackedIds.mpr ⟨1, by decide, (fill_id hfirst hst).symm⟩
  · obtain ⟨i, hi, hfill⟩ := List.mem_flatMap.mp hsecond
    refine ⟨fill_loop_id hfill, ?_⟩
    intro st hst
    exact mem_trackedIds.mpr
      ⟨i, List.mem_range.mp hi, (fill_id hfill hst).symm⟩

theorem overflowRun_eq_concat :
    overflowRun =
      (fill 107374200 20 1 ++ (List.range 399).flatMap (fill 205 20) ++
        fill 204 20 399) ++
        [⟨0, List.replicate 19 ⟨Int32.ofNat 399, 100, 95, 110, 90⟩ ++
          [⟨Int32.ofNat 399, 100, 95, 110, 90⟩]⟩] := by
  have hrange : List.range 400 = List.range 399 ++ [399] :=
    List.range_succ
  have hfill : fill 205 20 399 = fill 204 20 399 ++
      [⟨0, List.replicate 19 ⟨Int32.ofNat 399, 100, 95, 110, 90⟩ ++
        [⟨Int32.ofNat 399, 100, 95, 110, 90⟩]⟩] :=
    fill_succ 204 19 399
  unfold overflowRun
  rw [hrange, List.flatMap_append, List.flatMap_singleton, hfill]
  simp only [List.append_assoc]

theorem fill_sublist_overflowRun {i : ℕ} (hi : i < 400) :
    ((fill 205 20 i).flatMap Payload.records).Sublist
      (overflowRun.flatMap Payload.records) := by
  unfold overflowRun
  rw [List.flatMap_append, List.flatMap_assoc]
  have hblock : (fill 205 20 i).flatMap Payload.records ∈
      (List.range 400).map fun i =>
        (fill 205 20 i).flatMap Payload.records :=
    List.mem_map.mpr ⟨i, List.mem_range.mpr hi, rfl⟩
  exact (List.sublist_flatten_of_mem hblock).trans
    (List.sublist_append_right _ _)

theorem overflowRun_calls :
    coefficientCalls
      (HistoryMachine.run Config.shipped overflowRun).trace ≠ [] := by
  have hall : (overflowRun.flatMap Payload.records).filter
      (fun st => st.id_ ∈ trackedIds Config.shipped) =
        overflowRun.flatMap Payload.records := by
    rw [List.filter_eq_self]
    intro st hst
    obtain ⟨payload, hmem, hst⟩ := List.mem_flatMap.mp hst
    simpa using (overflowRun_records payload hmem).2 st hst
  apply HistoryMachine.run_calls_ne_nil overflowRun_eq_concat
  · intro payload hmem
    rw [(overflowRun_records payload hmem).1]
    decide
  · exact mem_trackedIds.mpr ⟨399, by decide, rfl⟩
  · rw [hall, overflowRun, List.flatMap_append, List.length_append,
      length_flatMap_fill, length_flatMap_fills]
    rfl
  · intro id hid
    obtain ⟨i, hi, rfl⟩ := mem_trackedIds.mp hid
    have hle := (((fill_sublist_overflowRun hi).filter
      fun st => st.id_ = Int32.ofNat i).map Stock.close_price_).length_le
    change (closesOf _ _).length ≤ (closesOf _ _).length at hle
    rw [length_closesOf_fill] at hle
    exact le_trans (by decide) hle

/-- After more than `2 ^ 31` prices of stock 1 the histories are complete at
the end of a batch, and the server says nothing. -/
theorem runPayloads_overflowRun_silent :
    (∀ payload ∈ overflowRun,
        payload.records.length = Config.shipped.groupStock) ∧
      ∃ s, runPayloads Config.shipped overflowRun = .ok () s ∧
        coefficientCalls s.trace = [] ∧
        coefficientCalls
          (HistoryMachine.run Config.shipped overflowRun).trace ≠ [] := by
  refine ⟨?_, runState Config.shipped overflowRun, runPayloads_ok _ _,
    overflowRun_silent, overflowRun_calls⟩
  intro payload hmem
  rcases List.mem_append.mp hmem with hfirst | hsecond
  · exact fill_length hfirst
  · obtain ⟨i, _, hfill⟩ := List.mem_flatMap.mp hsecond
    exact fill_length hfill

end StockFeed
