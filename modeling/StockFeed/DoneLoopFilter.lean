import StockFeed.FaultFreeRun

/-!
# The done-loop filter

`g_last_done_loop` remembers one loop: the one whose record triggered the most
recent call of `coefficient`.  The filter compares it with the loop id of each
payload, once, before the records are read.  So a payload is ignored exactly
when its loop is the last completed one.  Records behind the one which
completes the loop are still applied, and so are late datagrams of a loop
completed earlier.
-/

namespace StockFeed

/-- The loop which triggered the last call of `coefficient`. -/
def lastCompleted (trace : List Action) : Option Int32 :=
  (coefficientCalls trace).getLast?.map Prod.fst

/-- The record was stored in its window, counted and traced. -/
structure Applied (cfg : Config) (loop_id : Int32) (st : Stock)
    (s s' : Server) : Prop where
  stored : s'.deque st.id_ <:+ s.deque st.id_ ++ [st.close_price_]
  kept : s'.deque st.id_ ≠ []
  counted : s'.g_current_stocks = (s.g_current_stocks + 1) % cfg.serverStock
  traced : s.trace ++ [.applied loop_id st] <+: s'.trace

theorem Query.store_suffix
    {cfg : Config} {s s' : Server} {ok : Bool} (hquery : Query cfg s ok s')
    (loop_id : Int32) (st : Stock) :
    (s'.store ok loop_id st).deque st.id_ <:+
        s.deque st.id_ ++ [st.close_price_] ∧
      (s'.store ok loop_id st).deque st.id_ ≠ [] := by
  have hsuffix := hquery.suffix st.id_
  have hbase : (if ok then (s'.deque st.id_).tail else s'.deque st.id_) <:+
      s.deque st.id_ := by
    split_ifs
    · exact (List.tail_suffix _).trans hsuffix
    · exact hsuffix
  rw [Server.deque_store, if_pos rfl]
  rcases hbase with ⟨front, hfront⟩
  exact ⟨⟨front, by rw [← List.append_assoc, hfront]⟩, by simp⟩

theorem Query.ne_nil
    {cfg : Config} {s s' : Server} {ok : Bool} (hquery : Query cfg s ok s')
    {id : Int32} (hne : s.deque id ≠ []) : s'.deque id ≠ [] := by
  have hpos := cfg.priceListSize_pos
  rcases hquery.kept id with heq | ⟨hsize, heq⟩
  · rw [heq]
    exact hne
  · have hlength := priceListSize_le_trim_length hsize
    rw [heq]
    apply List.ne_nil_of_length_pos
    omega

theorem RecordStep.applied
    {cfg : Config} {loop_id : Int32} {st : Stock} {s s' : Server}
    (hstep : RecordStep cfg loop_id st s s') (hsound : s.Sound cfg)
    (hid : st.id_ ∈ trackedIds cfg) : Applied cfg loop_id st s s' := by
  have hcounter := hsound.counter
  cases hstep with
  | untracked hnot => exact absurd hid hnot
  | @stored ok s₁ _ hquery hcount =>
      have hstored := hquery.store_suffix loop_id st
      refine ⟨hstored.1, hstored.2, ?_, ?_⟩
      · rw [Nat.mod_eq_of_lt (by omega), hquery.frame]
        rfl
      · rw [hquery.frame]
        exact List.prefix_refl _
  | @batch ok ok' s₁ s₂ _ hquery hcount hagain =>
      have hstored := hquery.store_suffix loop_id st
      refine ⟨?_, ?_, ?_, ?_⟩
      · rw [Server.deque_finish]
        exact (hagain.suffix st.id_).trans hstored.1
      · rw [Server.deque_finish]
        exact hagain.ne_nil hstored.2
      · rw [Server.g_current_stocks_finish, hcount, Nat.mod_self]
      · have htrace : s₂.trace =
            s.trace ++ [.applied loop_id st] ++ [.serverGetAll] := by
          rw [hagain.frame]
          simp only [Server.announce, Server.store]
          rw [hquery.frame]
        have hfront : s.trace ++ [.applied loop_id st] <+: s₂.trace := by
          rw [htrace]
          exact List.prefix_append _ _
        unfold Server.finish
        split_ifs
        · exact hfront.trans (List.prefix_append _ _)
        · exact hfront

theorem not_applied_self
    (cfg : Config) (loop_id : Int32) (st : Stock) (s : Server) :
    ¬ Applied cfg loop_id st s s := by
  intro happlied
  have hle := happlied.traced.length_le
  rw [List.length_append, List.length_singleton] at hle
  omega

/-! ## The remembered loop -/

/-- `-1` stands for no completed loop. -/
def Server.Remembers (s : Server) : Prop :=
  s.g_last_done_loop = (lastCompleted s.trace).getD (-1)

theorem lastCompleted_append_nil
    {trace more : List Action} (hmore : coefficientCalls more = []) :
    lastCompleted (trace ++ more) = lastCompleted trace := by
  rw [lastCompleted, coefficientCalls_append, hmore, List.append_nil]
  rfl

theorem lastCompleted_coefficient
    (trace : List Action) (loop_id : Int32) (data : StockPriceMap) :
    lastCompleted (trace ++ [.coefficient loop_id data]) = some loop_id := by
  rw [lastCompleted, coefficientCalls_append]
  change ((coefficientCalls trace ++ [(loop_id, data)]).getLast?).map _ = _
  rw [List.getLast?_concat]
  rfl

theorem RecordStep.remembers
    {cfg : Config} {loop_id : Int32} {st : Stock} {s s' : Server}
    (hstep : RecordStep cfg loop_id st s s') (hremembers : s.Remembers) :
    s'.Remembers := by
  cases hstep with
  | untracked _ => exact hremembers
  | @stored ok s₁ _ hquery hcount =>
      unfold Server.Remembers
      simp only [Server.store]
      rw [hquery.frame]
      simp only
      rw [lastCompleted_append_nil rfl]
      exact hremembers
  | @batch ok ok' s₁ s₂ _ hquery hcount hagain =>
      cases ok' with
      | true =>
          unfold Server.Remembers Server.finish
          simp only [if_true]
          rw [lastCompleted_coefficient]
          rfl
      | false =>
          unfold Server.Remembers Server.finish
          simp only [Bool.false_eq_true, if_false]
          rw [hagain.frame]
          simp only [Server.announce, Server.store]
          rw [hquery.frame]
          simp only
          rw [lastCompleted_append_nil rfl, lastCompleted_append_nil rfl]
          exact hremembers

theorem runState_remembers (cfg : Config) (payloads : List Payload) :
    (runState cfg payloads).Remembers := by
  have hinit : (Server.initial cfg).Remembers := rfl
  exact runState_invariant hinit (fun _ _ hremembers => hremembers)
    (fun _ _ _ _ _ hremembers hstep => hstep.remembers hremembers) payloads

theorem done_iff_lastCompleted
    (cfg : Config) (payloads : List Payload) {loop_id : Int32}
    (hloop : loop_id ≠ -1) :
    (runState cfg payloads).g_last_done_loop = loop_id ↔
      lastCompleted (runState cfg payloads).trace = some loop_id := by
  rw [runState_remembers cfg payloads]
  cases lastCompleted (runState cfg payloads).trace with
  | none => simpa using hloop.symm
  | some last => simp

/-! ## One record of a run -/

theorem runState_record
    {cfg : Config} {before : List Payload} {loop_id : Int32}
    (hdone : (runState cfg before).g_last_done_loop ≠ loop_id)
    (first : List Stock) (st : Stock) :
    runState cfg (before ++ [⟨loop_id, first ++ [st]⟩]) =
      recordState cfg loop_id
        (runState cfg (before ++ [⟨loop_id, first⟩])) st := by
  rw [runState_concat, runState_concat, payloadState, payloadState,
    if_neg hdone, if_neg hdone, recordsState, List.foldl_append]
  rfl

/-- A record of a tracked stock is applied if and only if its loop is not the
one which completed last before its payload; the records of a payload of that
loop change nothing. -/
theorem record_applied_iff_not_lastCompleted
    (cfg : Config) (before : List Payload) (loop_id : Int32)
    (hloop : loop_id ≠ -1) (first : List Stock) (st : Stock)
    (hid : st.id_ ∈ trackedIds cfg) :
    ∃ s₀ s s', runPayloads cfg before = .ok () s₀ ∧
      runPayloads cfg (before ++ [⟨loop_id, first⟩]) = .ok () s ∧
      runPayloads cfg (before ++ [⟨loop_id, first ++ [st]⟩]) = .ok () s' ∧
      (Applied cfg loop_id st s s' ↔
        lastCompleted s₀.trace ≠ some loop_id) ∧
      (lastCompleted s₀.trace = some loop_id → s = s₀ ∧ s' = s₀) := by
  refine ⟨_, _, _, runPayloads_ok cfg _, runPayloads_ok cfg _,
    runPayloads_ok cfg _, ?_⟩
  have hiff := done_iff_lastCompleted cfg before hloop
  by_cases hdone : (runState cfg before).g_last_done_loop = loop_id
  · have hignored : ∀ records : List Stock,
        runState cfg (before ++ [⟨loop_id, records⟩]) =
          runState cfg before := by
      intro records
      rw [runState_concat, payloadState, if_pos hdone]
    rw [hignored, hignored]
    refine ⟨?_, fun _ => ⟨rfl, rfl⟩⟩
    constructor
    · intro happlied
      exact absurd happlied (not_applied_self cfg loop_id st _)
    · intro hnot
      exact absurd (hiff.mp hdone) hnot
  · have hnot := mt hiff.mpr hdone
    have hsound := runState_sound cfg (before ++ [⟨loop_id, first⟩])
    refine ⟨?_, fun hlast => absurd hlast hnot⟩
    rw [runState_record hdone]
    constructor
    · intro _
      exact hnot
    · intro _
      exact (recordStep_recordState hsound loop_id st).applied hsound hid

/-- After loops 0 to 4095 a payload of loop 4095 changes nothing, and the second
record of one of loop 4096 is applied. -/
theorem record_applied_after_loops :
    let quotes : Quotes := fun _ _ => ⟨100, 95, 110, 90⟩
    let before := (List.range 4096).flatMap
      (loopPayloads Config.shipped quotes)
    let first : Stock := ⟨0, 100, 95, 110, 90⟩
    let st : Stock := ⟨1, 100, 95, 110, 90⟩
    (4095 : Int32) ≠ -1 ∧ (4096 : Int32) ≠ -1 ∧
      st.id_ ∈ trackedIds Config.shipped ∧
      ∃ s₀ s s', runPayloads Config.shipped before = .ok () s₀ ∧
        lastCompleted s₀.trace = some 4095 ∧
        runPayloads Config.shipped (before ++ [⟨4095, [first, st]⟩]) =
          .ok () s₀ ∧
        runPayloads Config.shipped (before ++ [⟨4096, [first]⟩]) = .ok () s ∧
        runPayloads Config.shipped (before ++ [⟨4096, [first, st]⟩]) =
          .ok () s' ∧
        Applied Config.shipped 4096 st s s' := by
  intro quotes before first st
  have hdone : (4095 : Int32) ≠ -1 := by decide
  have hnext : (4096 : Int32) ≠ -1 := by decide
  have hid : st.id_ ∈ trackedIds Config.shipped :=
    mem_trackedIds.mpr ⟨1, by decide, rfl⟩
  obtain ⟨machine, hfollows, hafter⟩ :=
    @runState_loops Config.shipped quotes 4096 (by norm_num)
  have hlast : lastCompleted (runState Config.shipped before).trace =
      some 4095 := by
    rw [← done_iff_lastCompleted Config.shipped before hdone,
      hfollows.simulates.done, hafter.lastDone]
    rfl
  have hbefore := runPayloads_ok Config.shipped before
  obtain ⟨s₁, _, s₁', hrun₁, _, hignored, _, hsame⟩ :=
    record_applied_iff_not_lastCompleted Config.shipped before 4095 hdone
      [first] st hid
  obtain ⟨s₂, s, s', hrun₂, hfirst, hsecond, happlied, _⟩ :=
    record_applied_iff_not_lastCompleted Config.shipped before 4096 hnext
      [first] st hid
  have hs₁ : runState Config.shipped before = s₁ := by
    have heq := hbefore.symm.trans hrun₁
    injection heq
  have hs₂ : runState Config.shipped before = s₂ := by
    have heq := hbefore.symm.trans hrun₂
    injection heq
  rw [(hsame (hs₁ ▸ hlast)).2, ← hs₁] at hignored
  have hother : lastCompleted s₂.trace ≠ some 4096 := by
    rw [← hs₂, hlast]
    decide
  exact ⟨hdone, hnext, hid, _, s, s', hbefore, hlast, hignored, hfirst, hsecond,
    happlied.mpr hother⟩

/-! ## A loop completed earlier -/

/-- After loops 0 to 4096 both loop 4095 and loop 4096 have triggered
`coefficient`.  A second delivery of the first datagram of loop 4095 is
applied all the same. -/
theorem completed_loop_applied_again :
    let quotes : Quotes := fun _ _ => ⟨100, 95, 110, 90⟩
    let before := (List.range 4097).flatMap
      (loopPayloads Config.shipped quotes)
    let late := clientPayload Config.shipped quotes 4095 0
    ∃ st rest s₀ s s', late.records = st :: rest ∧
      st.id_ ∈ trackedIds Config.shipped ∧
      runPayloads Config.shipped before = .ok () s₀ ∧
      runPayloads Config.shipped (before ++ [⟨late.loop_id, []⟩]) = .ok () s ∧
      runPayloads Config.shipped (before ++ [⟨late.loop_id, [st]⟩]) =
        .ok () s' ∧
      (∃ data, (late.loop_id, data) ∈ coefficientCalls s₀.trace) ∧
      Applied Config.shipped late.loop_id st s s' := by
  intro quotes before late
  rcases runState_loops quotes (by norm_num : 4097 ≤ 2 ^ 31) with
    ⟨machine, hfollows, hafter⟩
  have hsize : Config.shipped.priceListSize = 4096 := rfl
  have hdone : (runState Config.shipped before).g_last_done_loop ≠
      late.loop_id := by
    rw [hfollows.simulates.done, hafter.lastDone, if_pos (by omega)]
    decide
  have hcalls : (late.loop_id, windowsAt Config.shipped quotes 4095) ∈
      coefficientCalls (runState Config.shipped before).trace :=
    windowsAt_mem_calls Config.shipped quotes (by omega : _ ≤ 4095 + 1)
      (by norm_num) (by norm_num)
  obtain ⟨rest, hrest⟩ :=
    records_clientPayload_eq_cons Config.shipped quotes 4095 0
  rw [Nat.zero_mul] at hrest
  refine ⟨_, rest, _, _, _, hrest, zero_mem_trackedIds _,
    runPayloads_ok _ _, runPayloads_ok _ _, runPayloads_ok _ _,
    ⟨_, hcalls⟩, ?_⟩
  have hsound := runState_sound Config.shipped
    (before ++ [⟨late.loop_id, []⟩])
  have hrecord := runState_record hdone [] (clientStock quotes 4095 0)
  rw [List.nil_append] at hrecord
  rw [hrecord]
  exact (recordStep_recordState hsound late.loop_id _).applied hsound
    (zero_mem_trackedIds _)

end StockFeed
