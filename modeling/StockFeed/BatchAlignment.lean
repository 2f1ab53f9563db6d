import StockFeed.FaultFreeRun
import StockFeed.HistoryRefinement

/-!
# Lost, repeated and reordered datagrams

The counter of the server counts applied records.  It does not know which
stocks were counted, nor in which loop, and a change of the loop resets
nothing.  A batch is one complete loop as long as every datagram joins the
open batch: it has the loop id of the records counted so far and repeats none
of their stocks.  On such runs all windows handed to `coefficient` are
aligned, and the counter is in phase at every fresh loop.

A single datagram which does not join puts the counter out of phase, and
nothing brings it back.
-/

namespace StockFeed

/-! ## Events of a trace -/

/-- Every event satisfies `Q` together with what came before it. -/
def AtEvents {α : Type} (Q : List α → α → Prop) (events : List α) : Prop :=
  ∀ k event, events[k]? = some event → Q (events.take k) event

theorem atEvents_nil {α : Type} (Q : List α → α → Prop) : AtEvents Q [] := by
  intro k event hevent
  simp at hevent

theorem AtEvents.concat
    {α : Type} {Q : List α → α → Prop} {events : List α} {last : α}
    (hevents : AtEvents Q events) (hlast : Q events last) :
    AtEvents Q (events ++ [last]) := by
  intro k event hevent
  rcases lt_trichotomy k events.length with hlt | heq | hgt
  · rw [List.getElem?_append_left hlt] at hevent
    rw [List.take_append_of_le_length hlt.le]
    exact hevents k event hevent
  · subst heq
    rw [List.getElem?_concat_length, Option.some.injEq] at hevent
    rw [List.take_left, ← hevent]
    exact hlast
  · rw [List.getElem?_eq_none (by simp; omega)] at hevent
    simp at hevent

/-- The records counted since the last reset, with their loop ids. -/
def openBatch (trace : List Action) : List (Int32 × Stock) :=
  trace.foldl (fun batch action =>
    match action with
    | .applied loop_id st => batch ++ [(loop_id, st)]
    | .serverGetAll => []
    | .coefficient _ _ => batch) []

/-- The prices stored for an id, with the loop ids they came with. -/
def received (id : Int32) (trace : List Action) : List (Int32 × Int32) :=
  trace.filterMap fun action =>
    match action with
    | .applied loop_id st =>
        if st.id_ = id then some (loop_id, st.close_price_) else none
    | _ => none

def CompleteLoop (cfg : Config) (batch : List (Int32 × Stock)) : Prop :=
  (batch.map fun counted => counted.2.id_).Perm (trackedIds cfg) ∧
    ∃ loop_id, ∀ counted ∈ batch, counted.1 = loop_id

/-- The entries at each position of all windows came with one loop id: the
windows are the last prices received, and the loop ids they came with are the
same for all stocks. -/
def AlignedWindows (cfg : Config) (before : List Action)
    (data : StockPriceMap) : Prop :=
  ∃ loops : List Int32, loops.length = cfg.priceListSize ∧
    ∀ id ∈ trackedIds cfg, ∃ older prices,
      data.find? id = some prices ∧ prices.length = cfg.priceListSize ∧
      received id before = older ++ loops.zip prices

def EventInPhase (cfg : Config) (before : List Action) : Action → Prop
  | .applied _ _ => True
  | .serverGetAll => CompleteLoop cfg (openBatch before)
  | .coefficient _ data => AlignedWindows cfg before data

theorem openBatch_applied (trace : List Action) (loop_id : Int32)
    (sts : List Stock) :
    openBatch (trace ++ sts.map (.applied loop_id)) =
      openBatch trace ++ sts.map fun st => (loop_id, st) := by
  induction sts using List.reverseRecOn with
  | nil => simp
  | append_singleton sts st ih =>
      rw [List.map_append, ← List.append_assoc, openBatch, List.foldl_append]
      change openBatch (trace ++ sts.map (.applied loop_id)) ++
        [(loop_id, st)] = _
      rw [ih, List.map_append, List.append_assoc]
      rfl

@[simp] theorem openBatch_serverGetAll (trace : List Action) :
    openBatch (trace ++ [.serverGetAll]) = [] := by
  rw [openBatch, List.foldl_append]
  rfl

@[simp] theorem openBatch_coefficient
    (trace : List Action) (loop_id : Int32) (data : StockPriceMap) :
    openBatch (trace ++ [.coefficient loop_id data]) = openBatch trace := by
  rw [openBatch, List.foldl_append]
  rfl

@[simp] theorem received_append
    (id : Int32) (first second : List Action) :
    received id (first ++ second) = received id first ++ received id second :=
  List.filterMap_append

@[simp] theorem received_serverGetAll (id : Int32) (trace : List Action) :
    received id (trace ++ [.serverGetAll]) = received id trace := by
  rw [received_append]
  exact List.append_nil _

@[simp] theorem received_coefficient
    (id : Int32) (trace : List Action) (loop_id : Int32)
    (data : StockPriceMap) :
    received id (trace ++ [.coefficient loop_id data]) =
      received id trace := by
  rw [received_append]
  exact List.append_nil _

theorem received_applied (id loop_id : Int32) (sts : List Stock) :
    received id (sts.map (.applied loop_id)) =
      (closesOf id sts).map fun price => (loop_id, price) := by
  induction sts with
  | nil => rfl
  | cons st rest ih =>
      by_cases heq : st.id_ = id
      · simp [received, closesOf, heq] at ih ⊢
        exact ih
      · simp [received, closesOf, heq] at ih ⊢
        exact ih

theorem AtEvents.applied
    {cfg : Config} {trace : List Action}
    (htrace : AtEvents (EventInPhase cfg) trace) (loop_id : Int32)
    (sts : List Stock) :
    AtEvents (EventInPhase cfg) (trace ++ sts.map (.applied loop_id)) := by
  induction sts using List.reverseRecOn with
  | nil => simpa using htrace
  | append_singleton sts st ih =>
      rw [List.map_append, ← List.append_assoc]
      exact ih.concat trivial

/-! ## Machines in phase -/

namespace HistoryMachine

variable {cfg : Config} {start : HistoryMachine} {loop_id : Int32}

/-- A machine at the start of a batch, after complete batches of the given
loops: all histories have one price of each of them. -/
structure Regular (cfg : Config) (loops : List Int32)
    (start : HistoryMachine) : Prop where
  level : Level cfg loops.length start
  settled : openBatch start.trace = []
  provenance : ∀ id ∈ trackedIds cfg,
    received id start.trace = loops.zip (start.history id)
  events : AtEvents (EventInPhase cfg) start.trace

theorem initial_regular (cfg : Config) : Regular cfg [] initial where
  level := initial_level cfg
  settled := rfl
  provenance := fun _ _ => rfl
  events := atEvents_nil _

theorem completeLoop_of_distinct
    {batch : List Stock} (hdistinct : Distinct cfg batch)
    (hfull : batch.length = cfg.serverStock) (loop_id : Int32) :
    CompleteLoop cfg (batch.map fun st => (loop_id, st)) := by
  constructor
  · rw [List.map_map]
    exact hdistinct.perm hfull
  · refine ⟨loop_id, ?_⟩
    intro counted hcounted
    obtain ⟨st, _, rfl⟩ := List.mem_map.mp hcounted
    rfl

theorem find?_windows
    {history : Int32 → List Int32} {id : Int32} (hid : id ∈ trackedIds cfg) :
    (windows cfg history).find? id =
      some ((history id).rtake cfg.priceListSize) := by
  rw [OrderedMap.find?_eq_some_iff]
  exact List.mem_map.mpr ⟨id, hid, rfl⟩

theorem alignedWindows_windows
    {loops : List Int32} {before : List Action}
    {history : Int32 → List Int32}
    (hlong : cfg.priceListSize ≤ loops.length)
    (hlength : ∀ id ∈ trackedIds cfg, (history id).length = loops.length)
    (hreceived : ∀ id ∈ trackedIds cfg,
      received id before = loops.zip (history id)) :
    AlignedWindows cfg before (windows cfg history) := by
  refine ⟨loops.rtake cfg.priceListSize, ?_, ?_⟩
  · rw [List.rtake, List.length_drop]
    omega
  · intro id hid
    refine ⟨(loops.zip (history id)).take (loops.length - cfg.priceListSize),
      _, find?_windows hid, ?_, ?_⟩
    · rw [List.rtake, List.length_drop, hlength id hid]
      omega
    · rw [hreceived id hid, List.rtake, List.rtake, hlength id hid,
        List.zip, ← List.drop_zipWith, List.take_append_drop]

/-- A complete batch adds one price of its loop to every history. -/
theorem Regular.received_during
    {loops : List Int32} {batch : List Stock}
    (hregular : Regular cfg loops start) (hdistinct : Distinct cfg batch)
    (hfull : batch.length = cfg.serverStock) (loop_id : Int32) :
    ∀ id ∈ trackedIds cfg,
      received id (start.during loop_id batch).trace =
        (loops ++ [loop_id]).zip ((start.during loop_id batch).history id) := by
  intro id hid
  rcases List.length_eq_one_iff.mp (hdistinct.length_closesOf_eq_one hfull hid)
    with ⟨price, hprice⟩
  rw [history_during, hprice,
    List.zip_append (hregular.level.history id hid).symm,
    ← hregular.provenance id hid, during, received_append, received_applied,
    hprice]
  rfl

theorem Regular.events_during
    {loops : List Int32} {batch : List Stock}
    (hregular : Regular cfg loops start) (hdistinct : Distinct cfg batch)
    (hfull : batch.length = cfg.serverStock) (loop_id : Int32) :
    AtEvents (EventInPhase cfg)
      ((start.during loop_id batch).trace ++ [.serverGetAll]) := by
  have hopen : openBatch (start.during loop_id batch).trace =
      batch.map fun st => (loop_id, st) := by
    rw [during, openBatch_applied, hregular.settled, List.nil_append]
  apply (hregular.events.applied loop_id batch).concat
  change CompleteLoop cfg (openBatch (start.during loop_id batch).trace)
  rw [hopen]
  exact completeLoop_of_distinct hdistinct hfull loop_id

theorem Regular.closeBatch
    {loops : List Int32} {batch : List Stock}
    (hregular : Regular cfg loops start) (hdistinct : Distinct cfg batch)
    (hfull : batch.length = cfg.serverStock) (loop_id : Int32) :
    Regular cfg (loops ++ [loop_id])
      ((start.during loop_id batch).endBatch cfg loop_id) := by
  have hlevel := hregular.level.endBatch hdistinct hfull loop_id
  have hevents := hregular.events_during hdistinct hfull loop_id
  have hreceived := hregular.received_during hdistinct hfull loop_id
  have hlength : (loops ++ [loop_id]).length = loops.length + 1 := by simp
  rw [← hlength] at hlevel
  by_cases hlong : Complete cfg (start.during loop_id batch).history
  · have htrace := trace_endBatch_of_complete hlong loop_id
    refine ⟨hlevel, ?_, ?_, ?_⟩
    · rw [htrace, openBatch_coefficient, openBatch_serverGetAll]
    · intro id hid
      rw [htrace, received_coefficient, received_serverGetAll,
        history_endBatch]
      exact hreceived id hid
    · have hhistory := hlevel.history
      have hcomplete := hlevel.complete_iff
      rw [history_endBatch] at hhistory hcomplete
      rw [htrace]
      apply hevents.concat
      apply alignedWindows_windows (hcomplete.mp hlong) hhistory
      intro id hid
      rw [received_serverGetAll]
      exact hreceived id hid
  · have htrace := trace_endBatch_of_not_complete hlong loop_id
    refine ⟨hlevel, ?_, ?_, ?_⟩
    · rw [htrace, openBatch_serverGetAll]
    · intro id hid
      rw [htrace, received_serverGetAll, history_endBatch]
      exact hreceived id hid
    · rw [htrace]
      exact hevents

end HistoryMachine

/-! ## Datagrams which join the open batch -/

/-- The datagram is ignored by the done-loop test, or has no tracked stock, or
belongs to the loop of all records counted since the last reset and repeats
none of their stocks. -/
def Joins (cfg : Config) (s : Server) (p : Payload) : Prop :=
  s.g_last_done_loop = p.loop_id ∨
    HistoryMachine.tracked cfg p.records = [] ∨
    ∀ counted ∈ openBatch s.trace, counted.1 = p.loop_id ∧
      ∀ st ∈ p.records, st.id_ ≠ counted.2.id_

instance (cfg : Config) (s : Server) (p : Payload) :
    Decidable (Joins cfg s p) :=
  inferInstanceAs (Decidable (_ ∨ _ ∨ _))

def JoinsThroughout (cfg : Config) (delivered : List Payload) : Prop :=
  ∀ before p after, delivered = before ++ p :: after →
    Joins cfg (runState cfg before) p

theorem joinsThroughout_nil (cfg : Config) : JoinsThroughout cfg [] := by
  intro before p after hsplit
  simp at hsplit

theorem JoinsThroughout.concat
    {cfg : Config} {delivered : List Payload} {p : Payload}
    (hjoins : JoinsThroughout cfg delivered)
    (hlast : Joins cfg (runState cfg delivered) p) :
    JoinsThroughout cfg (delivered ++ [p]) := by
  intro before middle after hsplit
  rcases List.eq_nil_or_concat after with rfl | ⟨rest, last, rfl⟩
  · have hends := List.append_inj' hsplit rfl
    rw [← hends.1, ← (List.singleton_inj.mp hends.2)]
    exact hlast
  · rw [List.concat_eq_append, ← List.cons_append, ← List.append_assoc]
      at hsplit
    exact hjoins before middle rest (List.append_inj' hsplit rfl).1

/-- A machine in the middle of a batch, all earlier batches complete loops; the
loop ids it knows are in `known`. -/
structure Assembling (cfg : Config) (known loops : List Int32)
    (start : HistoryMachine) (loop_id : Int32) (seen : List Stock) :
    Prop where
  regular : HistoryMachine.Regular cfg loops start
  unfinished : seen.length < cfg.serverStock
  distinct : HistoryMachine.Distinct cfg seen
  lastDone : start.lastDone = -1 ∨ start.lastDone ∈ known
  current : seen ≠ [] → loop_id ∈ known

/-- The server follows a machine whose batches are complete loops. -/
def InPhase (cfg : Config) (known : List Int32) (s : Server) : Prop :=
  ∃ loops start loop_id seen, Assembling cfg known loops start loop_id seen ∧
    Follows cfg s (start.during loop_id seen)

theorem initial_inPhase (cfg : Config) :
    InPhase cfg [] (Server.initial cfg) := by
  refine ⟨[], HistoryMachine.initial, 0, [], ?_, ?_⟩
  · exact ⟨HistoryMachine.initial_regular cfg, cfg.serverStock_pos,
      ⟨by simp, List.nodup_nil⟩, Or.inl rfl, by simp⟩
  · rw [HistoryMachine.during_nil]
    exact initial_follows cfg

theorem InPhase.mono
    {cfg : Config} {known more : List Int32} {s : Server}
    (hphase : InPhase cfg known s) (hsub : known ⊆ more) :
    InPhase cfg more s := by
  rcases hphase with ⟨loops, start, loop_id, seen, hassembling, hfollows⟩
  exact ⟨loops, start, loop_id, seen,
    ⟨hassembling.regular, hassembling.unfinished, hassembling.distinct,
      hassembling.lastDone.imp_right fun h => hsub h,
      fun h => hsub (hassembling.current h)⟩, hfollows⟩

section OpenBatch

variable {cfg : Config} {known loops : List Int32} {start : HistoryMachine}
  {loop_id : Int32} {seen : List Stock} {s : Server}
  (hassembling : Assembling cfg known loops start loop_id seen)
  (hfollows : Follows cfg s (start.during loop_id seen))

include hassembling hfollows

theorem openBatch_eq_seen :
    openBatch s.trace = seen.map fun st => (loop_id, st) := by
  rw [hfollows.simulates.trace, HistoryMachine.during, openBatch_applied,
    hassembling.regular.settled, List.nil_append]

theorem joins_extends
    {p : Payload}
    (hjoins : ∀ counted ∈ openBatch s.trace, counted.1 = p.loop_id ∧
      ∀ st ∈ p.records, st.id_ ≠ counted.2.id_)
    (hdistinct : HistoryMachine.Distinct cfg
      (HistoryMachine.tracked cfg p.records)) :
    start.during loop_id seen = start.during p.loop_id seen ∧
      HistoryMachine.Distinct cfg
        (seen ++ HistoryMachine.tracked cfg p.records) := by
  rw [openBatch_eq_seen hassembling hfollows] at hjoins
  have hseen : ∀ st ∈ seen, loop_id = p.loop_id ∧
      ∀ other ∈ p.records, other.id_ ≠ st.id_ := by
    intro st hst
    exact hjoins (loop_id, st) (List.mem_map.mpr ⟨st, hst, rfl⟩)
  refine ⟨?_, ?_, ?_⟩
  · cases seen with
    | nil => simp
    | cons st rest => rw [(hseen st (by simp)).1]
  · intro st hst
    rcases List.mem_append.mp hst with hold | hnew
    · exact hassembling.distinct.tracked st hold
    · exact hdistinct.tracked st hnew
  · rw [List.map_append, List.nodup_append']
    refine ⟨hassembling.distinct.nodup, hdistinct.nodup, ?_⟩
    intro id hold hnew
    obtain ⟨st, hst, rfl⟩ := List.mem_map.mp hold
    obtain ⟨other, hother, heq⟩ := List.mem_map.mp hnew
    exact (hseen st hst).2 other (List.mem_filter.mp hother).1 heq

end OpenBatch

theorem InPhase.payload
    {cfg : Config} {known : List Int32} {s : Server} {p : Payload}
    (hphase : InPhase cfg known s) (hjoins : Joins cfg s p)
    (hdistinct : HistoryMachine.Distinct cfg
      (HistoryMachine.tracked cfg p.records)) :
    InPhase cfg (p.loop_id :: known) (payloadState cfg s p) := by
  have hkept := hphase.mono (List.subset_cons_self p.loop_id known)
  by_cases hdone : s.g_last_done_loop = p.loop_id
  · rw [payloadState, if_pos hdone]
    exact hkept
  rcases hphase with ⟨loops, start, loop_id, seen, hassembling, hfollows⟩
  rcases hjoins with hignored | hnone | hopen
  · exact absurd hignored hdone
  · rcases hkept with ⟨loops', start', loop', seen', hassembling', hfollows'⟩
    have huntracked := HistoryMachine.payload_untracked hnone
      (start'.during loop' seen')
    have hnext := payloadState_follows hfollows' huntracked.1
    rw [huntracked.2] at hnext
    exact ⟨loops', start', loop', seen', hassembling', hnext⟩
  · have hextends := joins_extends hassembling hfollows hopen hdistinct
    have hlast : start.lastDone ≠ p.loop_id := by
      intro heq
      exact hdone (hfollows.simulates.done.trans heq)
    rw [hextends.1] at hfollows
    have hlevel := hassembling.regular.level
    have hnext := payloadState_follows hfollows
      (Or.inr (hlevel.roomAlong hassembling.unfinished hextends.2))
    rw [HistoryMachine.payload_during hlevel.applied hlast
      hassembling.unfinished hextends.2.length_le,
      HistoryMachine.joined] at hnext
    have hknown : start.lastDone = -1 ∨ start.lastDone ∈ p.loop_id :: known :=
      hassembling.lastDone.imp_right fun h => List.mem_cons_of_mem _ h
    by_cases hfull : (seen ++ HistoryMachine.tracked cfg p.records).length =
        cfg.serverStock
    · rw [if_pos hfull, ← HistoryMachine.during_nil
        (HistoryMachine.endBatch cfg p.loop_id _) p.loop_id] at hnext
      refine ⟨_, _, _, [], ⟨hassembling.regular.closeBatch hextends.2 hfull
        p.loop_id, cfg.serverStock_pos, ⟨by simp, List.nodup_nil⟩, ?_,
        by simp⟩, hnext⟩
      rcases HistoryMachine.lastDone_endBatch (HistoryMachine.during start
        p.loop_id (seen ++ HistoryMachine.tracked cfg p.records)) with
        hclosed | hsame
      · rw [hclosed]
        exact Or.inr (by simp)
      · rw [hsame]
        exact hknown
    · rw [if_neg hfull] at hnext
      have hlt := hextends.2.length_le
      exact ⟨_, _, _, _, ⟨hassembling.regular, by omega, hextends.2, hknown,
        fun _ => by simp⟩, hnext⟩

theorem runState_inPhase
    {cfg : Config} {delivered : List Payload}
    (hjoins : JoinsThroughout cfg delivered)
    (hdistinct : ∀ p ∈ delivered, HistoryMachine.Distinct cfg
      (HistoryMachine.tracked cfg p.records)) :
    InPhase cfg (delivered.map Payload.loop_id) (runState cfg delivered) := by
  induction delivered using List.reverseRecOn with
  | nil => exact initial_inPhase cfg
  | append_singleton delivered p ih =>
      have hbefore : JoinsThroughout cfg delivered := by
        intro before middle after hsplit
        apply hjoins before middle (after ++ [p])
        rw [hsplit, List.append_assoc, List.cons_append]
      have hphase := ih hbefore fun other hother =>
        hdistinct other (by simp [hother])
      rw [runState_concat]
      apply (hphase.payload (hjoins delivered p [] rfl)
        (hdistinct p (by simp))).mono
      intro loop_id hloop
      simpa [or_comm] using hloop

theorem InPhase.events
    {cfg : Config} {known : List Int32} {s : Server}
    (hphase : InPhase cfg known s) :
    AtEvents (EventInPhase cfg) s.trace := by
  rcases hphase with ⟨loops, start, loop_id, seen, hassembling, hfollows⟩
  rw [hfollows.simulates.trace]
  exact hassembling.regular.events.applied loop_id seen

theorem InPhase.counter
    {cfg : Config} {known : List Int32} {s : Server}
    (hphase : InPhase cfg known s) :
    s.g_current_stocks = (openBatch s.trace).length := by
  rcases hphase with ⟨loops, start, loop_id, seen, hassembling, hfollows⟩
  rw [openBatch_eq_seen hassembling hfollows, hfollows.simulates.counter,
    List.length_map]
  change (start.applied + seen.length) % cfg.serverStock = seen.length
  rw [Nat.add_mod, hassembling.regular.level.applied, Nat.zero_add,
    Nat.mod_mod, Nat.mod_eq_of_lt hassembling.unfinished]

/-! ## The stream of the client -/

def Sent (cfg : Config) (quotes : Quotes) (p : Payload) : Prop :=
  ∃ lc < 2 ^ 31, p ∈ loopPayloads cfg quotes lc

theorem Sent.distinct
    {cfg : Config} {quotes : Quotes} {p : Payload} (hsent : Sent cfg quotes p) :
    HistoryMachine.Distinct cfg (HistoryMachine.tracked cfg p.records) := by
  rcases hsent with ⟨lc, _, hp⟩
  have hrecords : p.records.Sublist
      ((loopPayloads cfg quotes lc).flatMap Payload.records) :=
    List.sublist_flatten_of_mem (List.mem_map.mpr ⟨p, hp, rfl⟩)
  have hloop := trackedRecords_distinct
    (List.Perm.refl (loopPayloads cfg quotes lc))
  exact hloop.sublist (hrecords.filter _)

/-- On every sequence of client datagrams which all join the open batch, the
windows of each call of `coefficient` are aligned. -/
theorem coefficient_windows_aligned
    (cfg : Config) (quotes : Quotes) (delivered : List Payload)
    (hsent : ∀ p ∈ delivered, Sent cfg quotes p)
    (hjoins : JoinsThroughout cfg delivered) :
    ∃ s, runPayloads cfg delivered = .ok () s ∧
      ∀ (k : ℕ) (loop_id : Int32) (data : StockPriceMap),
        s.trace[k]? = some (.coefficient loop_id data) →
          AlignedWindows cfg (s.trace.take k) data := by
  refine ⟨_, runPayloads_ok cfg delivered, ?_⟩
  intro k loop_id data hevent
  have hphase := runState_inPhase hjoins fun p hp => (hsent p hp).distinct
  exact hphase.events k _ hevent

def pairQuotes : Quotes := fun lc i =>
  ⟨0, Int32.ofNat (10 * lc + i), 0, 0⟩

theorem joinsThroughout_pair :
    JoinsThroughout Config.pair (loopPayloads Config.pair pairQuotes 0) := by
  have hfirst : JoinsThroughout Config.pair
      ([] ++ [clientPayload Config.pair pairQuotes 0 0]) :=
    (joinsThroughout_nil Config.pair).concat (by decide)
  exact hfirst.concat (p := clientPayload Config.pair pairQuotes 0 1)
    (by decide)

theorem coefficient_windows_aligned_pair :
    let delivered := loopPayloads Config.pair pairQuotes 0
    (∀ p ∈ delivered, Sent Config.pair pairQuotes p) ∧
      JoinsThroughout Config.pair delivered ∧
      ∃ s, runPayloads Config.pair delivered = .ok () s ∧
        ∀ (k : ℕ) (loop_id : Int32) (data : StockPriceMap),
          s.trace[k]? = some (.coefficient loop_id data) →
            AlignedWindows Config.pair (s.trace.take k) data := by
  intro delivered
  have hsent : ∀ p ∈ delivered, Sent Config.pair pairQuotes p :=
    fun p hp => ⟨0, by norm_num, hp⟩
  exact ⟨hsent, joinsThroughout_pair, coefficient_windows_aligned Config.pair
    pairQuotes delivered hsent joinsThroughout_pair⟩

/-- Stock 1 is lost in loop 0, and everything else arrives in order: the price
of stock 0 in loop 2 meets the price of stock 1 in loop 1. -/
theorem coefficient_windows_misaligned :
    let delivered := [clientPayload Config.pair pairQuotes 0 0,
      clientPayload Config.pair pairQuotes 1 0,
      clientPayload Config.pair pairQuotes 1 1,
      clientPayload Config.pair pairQuotes 2 0]
    (∀ p ∈ delivered, Sent Config.pair pairQuotes p) ∧
      ∃ s, runPayloads Config.pair delivered = .ok () s ∧
        ∃ (k : ℕ) (loop_id : Int32) (data : StockPriceMap),
          s.trace[k]? = some (.coefficient loop_id data) ∧
            received 0 (s.trace.take k) = [(0, 0), (1, 10), (2, 20)] ∧
            received 1 (s.trace.take k) = [(1, 11)] ∧
            data.find? 0 = some [20] ∧ data.find? 1 = some [11] ∧
            ¬ AlignedWindows Config.pair (s.trace.take k) data := by
  intro delivered
  have hsent : ∀ p ∈ delivered, Sent Config.pair pairQuotes p := by
    have hmem : ∀ lc i, i < 2 →
        clientPayload Config.pair pairQuotes lc i ∈
          loopPayloads Config.pair pairQuotes lc := by
      intro lc i hi
      rw [loopPayloads_eq]
      exact List.mem_map.mpr ⟨i, List.mem_range.mpr hi, rfl⟩
    simp only [delivered, List.forall_mem_cons]
    exact ⟨⟨0, by norm_num, hmem 0 0 (by norm_num)⟩,
      ⟨1, by norm_num, hmem 1 0 (by norm_num)⟩,
      ⟨1, by norm_num, hmem 1 1 (by norm_num)⟩,
      ⟨2, by norm_num, hmem 2 0 (by norm_num)⟩, by simp⟩
  let data : StockPriceMap :=
    ((OrderedMap.empty.upsert 0 fun _ => [20]).upsert 1 fun _ => [11])
  have hevent : (runState Config.pair delivered).trace[6]? =
      some (.coefficient 2 data) := by decide
  have hzero : received 0 ((runState Config.pair delivered).trace.take 6) =
      [(0, 0), (1, 10), (2, 20)] := by decide
  have hone : received 1 ((runState Config.pair delivered).trace.take 6) =
      [(1, 11)] := by decide
  refine ⟨hsent, _, runPayloads_ok _ _, 6, 2, data, hevent, hzero, hone, by decide,
    by decide, ?_⟩
  intro haligned
  rcases haligned with ⟨loops, hlength, hwindows⟩
  obtain ⟨loop_id, rfl⟩ := List.length_eq_one_iff.mp hlength
  obtain ⟨older, prices, _, hprices, hreceived⟩ := hwindows 0 (by decide)
  obtain ⟨price, rfl⟩ := List.length_eq_one_iff.mp hprices
  obtain ⟨older', prices', _, hprices', hreceived'⟩ := hwindows 1 (by decide)
  obtain ⟨price', rfl⟩ := List.length_eq_one_iff.mp hprices'
  rw [hzero] at hreceived
  rw [hone] at hreceived'
  have htwo := congrArg List.getLast? hreceived
  have hlast := congrArg List.getLast? hreceived'
  simp at htwo hlast
  rw [← htwo.1] at hlast
  simp at hlast

/-! ## Fresh loops -/

theorem loopPayloads_eq_cons (cfg : Config) (quotes : Quotes) (lc : ℕ) :
    ∃ rest, loopPayloads cfg quotes lc =
      clientPayload cfg quotes lc 0 :: rest := by
  have hsent : cfg.serverStock ≤ cfg.groupCount * cfg.groupStock :=
    cfg.tracked_sent
  have hpos := cfg.serverStock_pos
  have hgroups : cfg.groupCount ≠ 0 := by
    intro hzero
    rw [hzero, Nat.zero_mul] at hsent
    omega
  obtain ⟨n, hn⟩ := Nat.exists_eq_succ_of_ne_zero hgroups
  rw [loopPayloads_eq, hn, List.range_succ_eq_map, List.map_cons]
  exact ⟨_, rfl⟩

theorem tracked_firstPayload_ne_nil
    (cfg : Config) (quotes : Quotes) (lc : ℕ) :
    HistoryMachine.tracked cfg (clientPayload cfg quotes lc 0).records ≠ [] := by
  have hid : (clientStock quotes lc 0).id_ ∈ trackedIds cfg :=
    zero_mem_trackedIds cfg
  obtain ⟨rest, hrest⟩ := records_clientPayload_eq_cons cfg quotes lc 0
  rw [Nat.zero_mul] at hrest
  rw [hrest, HistoryMachine.tracked_cons_of_mem hid]
  simp

theorem InPhase.fresh
    {cfg : Config} {quotes : Quotes} {known : List Int32} {s : Server} {lc : ℕ}
    (hphase : InPhase cfg known s) (hlc : lc < 2 ^ 31)
    (hfresh : Int32.ofNat lc ∉ known)
    (hjoins : Joins cfg s (clientPayload cfg quotes lc 0)) :
    ∃ loops start, HistoryMachine.Regular cfg loops start ∧
      start.lastDone ≠ Int32.ofNat lc ∧ Follows cfg s start := by
  rcases hphase with ⟨loops, start, loop_id, seen, hassembling, hfollows⟩
  have hlast : start.lastDone ≠ Int32.ofNat lc := by
    rcases hassembling.lastDone with hnone | hknown
    · rw [hnone]
      intro heq
      have hint := congrArg Int32.toInt heq
      have hminus : (-1 : Int32).toInt = -1 := rfl
      rw [Int32.toInt_ofNat_of_lt hlc, hminus] at hint
      omega
    · intro heq
      exact hfresh (heq ▸ hknown)
  have hseen : seen = [] := by
    rcases hjoins with hignored | hnone | hopen
    · exact absurd (hfollows.simulates.done.symm.trans hignored) hlast
    · exact absurd hnone (tracked_firstPayload_ne_nil cfg quotes lc)
    · rw [openBatch_eq_seen hassembling hfollows] at hopen
      cases seen with
      | nil => rfl
      | cons st rest =>
          have hloop : loop_id = Int32.ofNat lc := (hopen (loop_id, st)
            (by simp)).1
          exact absurd (hloop ▸ hassembling.current (by simp)) hfresh
  subst hseen
  rw [HistoryMachine.during_nil] at hfollows
  exact ⟨loops, start, hassembling.regular, hlast, hfollows⟩

theorem runState_fresh_loop
    {cfg : Config} {quotes : Quotes} {before : List Payload} {lc : ℕ}
    (hphase : InPhase cfg (before.map Payload.loop_id) (runState cfg before))
    (hlc : lc < 2 ^ 31)
    (hfresh : ∀ p ∈ before, p.loop_id ≠ Int32.ofNat lc)
    (hjoins : Joins cfg (runState cfg before)
      (clientPayload cfg quotes lc 0)) :
    ∃ tail, (runState cfg (before ++ loopPayloads cfg quotes lc)).trace =
        (runState cfg before).trace ++
          (List.range cfg.serverStock).map (fun i =>
            Action.applied (Int32.ofNat lc) (clientStock quotes lc i)) ++
          Action.serverGetAll :: tail ∧
      ∀ action ∈ tail, ∃ data, action = .coefficient (Int32.ofNat lc) data := by
  have hnew : Int32.ofNat lc ∉ before.map Payload.loop_id := by
    intro hmem
    obtain ⟨p, hp, heq⟩ := List.mem_map.mp hmem
    exact hfresh p hp heq
  rcases hphase.fresh hlc hnew hjoins with
    ⟨loops, start, hregular, hlast, hfollows⟩
  have hperm := List.Perm.refl (loopPayloads cfg quotes lc)
  have hempty : ([] : List Stock).length < cfg.serverStock :=
    cfg.serverStock_pos
  have hdistinct := trackedRecords_distinct hperm
  have hloop : ∀ p ∈ loopPayloads cfg quotes lc,
      p.loop_id = Int32.ofNat lc := fun p hp => loopPayloads_loop_id hp
  have hroom := hregular.level.runRoom_during hloop hlast hempty hdistinct
  have hrun := HistoryMachine.foldl_payload_during hregular.level.applied hloop
    hlast hempty hdistinct.length_le
  rw [HistoryMachine.during_nil] at hroom hrun
  have hend := foldl_payloadState_follows hfollows hroom
  rw [hrun, ← runState_append, List.nil_append, tracked_loopPayloads,
    HistoryMachine.joined, if_pos (by simp)] at hend
  have htrace := hend.simulates.trace
  rcases HistoryMachine.trace_endBatch (HistoryMachine.during start
    (Int32.ofNat lc) ((List.range cfg.serverStock).map
      (clientStock quotes lc))) with ⟨tail, hbatch, htail⟩
  refine ⟨tail, ?_, htail⟩
  rw [htrace, hbatch, hfollows.simulates.trace, HistoryMachine.during,
    List.map_map]
  rfl

/-- On every sequence of client datagrams which all join the open batch, the
counter counts the records of one loop, each batch is one complete loop, and a
fresh loop delivered in order is counted from its first to its last tracked
stock. -/
theorem batches_are_complete_loops
    (cfg : Config) (quotes : Quotes) (delivered : List Payload)
    (hsent : ∀ p ∈ delivered, Sent cfg quotes p)
    (hjoins : JoinsThroughout cfg delivered) :
    ∃ s, runPayloads cfg delivered = .ok () s ∧
      s.g_current_stocks = (openBatch s.trace).length ∧
      (∀ k : ℕ, s.trace[k]? = some .serverGetAll →
        CompleteLoop cfg (openBatch (s.trace.take k))) ∧
      ∀ before lc, delivered = before ++ loopPayloads cfg quotes lc →
        lc < 2 ^ 31 → (∀ p ∈ before, p.loop_id ≠ Int32.ofNat lc) →
        ∃ s₀ tail, runPayloads cfg before = .ok () s₀ ∧
          s.trace = s₀.trace ++
            (List.range cfg.serverStock).map (fun i =>
              .applied (Int32.ofNat lc) (clientStock quotes lc i)) ++
            .serverGetAll :: tail ∧
          ∀ action ∈ tail,
            ∃ data, action = .coefficient (Int32.ofNat lc) data := by
  have hphase := runState_inPhase hjoins fun p hp => (hsent p hp).distinct
  refine ⟨_, runPayloads_ok cfg delivered, hphase.counter, ?_, ?_⟩
  · intro k hevent
    exact hphase.events k _ hevent
  · intro before lc hsplit hlc hfresh
    subst hsplit
    obtain ⟨rest, hrest⟩ := loopPayloads_eq_cons cfg quotes lc
    have hbefore : JoinsThroughout cfg before := by
      intro first p after hsplit
      apply hjoins first p (after ++ loopPayloads cfg quotes lc)
      rw [hsplit, List.append_assoc, List.cons_append]
    have hstart := runState_inPhase hbefore fun p hp =>
      (hsent p (by simp [hp])).distinct
    have hfirst := hjoins before (clientPayload cfg quotes lc 0) rest
      (by rw [hrest])
    rcases runState_fresh_loop hstart hlc hfresh hfirst with
      ⟨tail, htrace, htail⟩
    exact ⟨_, tail, runPayloads_ok cfg before, htrace, htail⟩

theorem batches_are_complete_loops_pair :
    let delivered := loopPayloads Config.pair pairQuotes 0
    (∀ p ∈ delivered, Sent Config.pair pairQuotes p) ∧
      JoinsThroughout Config.pair delivered ∧
      ∃ s, runPayloads Config.pair delivered = .ok () s ∧
        ∀ k : ℕ, s.trace[k]? = some .serverGetAll →
          CompleteLoop Config.pair (openBatch (s.trace.take k)) := by
  intro delivered
  have hsent : ∀ p ∈ delivered, Sent Config.pair pairQuotes p :=
    fun p hp => ⟨0, by norm_num, hp⟩
  rcases batches_are_complete_loops Config.pair pairQuotes delivered hsent
    joinsThroughout_pair with ⟨s, hrun, _, hbatches, _⟩
  exact ⟨hsent, joinsThroughout_pair, s, hrun, hbatches⟩

theorem id_of_mem_firstPayload
    {cfg : Config} {quotes : Quotes} {st : Stock}
    (hst : st ∈ (clientPayload cfg quotes 0 0).records) :
    ∃ j < cfg.groupStock, st.id_ = Int32.ofNat j := by
  obtain ⟨j, hj, rfl⟩ := List.mem_map.mp hst
  refine ⟨j, List.mem_range.mp hj, ?_⟩
  rw [Nat.zero_mul, Nat.zero_add]
  rfl

def repeatedDatagram : List Payload :=
  List.replicate 20 (clientPayload Config.shipped pairQuotes 0 0)

theorem length_repeatedDatagram :
    (repeatedDatagram.flatMap Payload.records).length = 400 := by
  have hone : (clientPayload Config.shipped pairQuotes 0 0).records.length =
      20 := by
    rw [clientPayload, List.length_map, List.length_range]
    rfl
  rw [repeatedDatagram, List.length_flatMap, List.map_replicate,
    List.sum_replicate, hone]
  rfl

theorem id_of_mem_repeatedDatagram
    {st : Stock} (hst : st ∈ repeatedDatagram.flatMap Payload.records) :
    ∃ j < 20, st.id_ = Int32.ofNat j := by
  obtain ⟨p, hp, hst⟩ := List.mem_flatMap.mp hst
  rw [List.eq_of_mem_replicate hp] at hst
  exact id_of_mem_firstPayload hst

theorem tracked_repeatedDatagram :
    HistoryMachine.tracked Config.shipped
        (repeatedDatagram.flatMap Payload.records) =
      repeatedDatagram.flatMap Payload.records := by
  have hstock : Config.shipped.serverStock = 400 := rfl
  rw [HistoryMachine.tracked, List.filter_eq_self]
  intro st hst
  obtain ⟨j, hj, heq⟩ := id_of_mem_repeatedDatagram hst
  rw [decide_eq_true_eq, heq, ofNat_mem_trackedIds_iff _ (by omega)]
  omega

theorem trace_repeatedDatagram :
    ∃ tail, (runState Config.shipped repeatedDatagram).trace =
      (repeatedDatagram.flatMap Payload.records).map (.applied 0) ++
        .serverGetAll :: tail := by
  have hstock : Config.shipped.serverStock = 400 := rfl
  have hlength := length_repeatedDatagram
  have htracked := tracked_repeatedDatagram
  have hempty : ([] : List Stock).length < Config.shipped.serverStock :=
    Config.shipped.serverStock_pos
  have hloop : ∀ p ∈ repeatedDatagram, p.loop_id = 0 := by
    intro p hp
    rw [List.eq_of_mem_replicate hp]
    rfl
  have hlast : HistoryMachine.initial.lastDone ≠ 0 := by decide
  have hrun := HistoryMachine.foldl_payload_during
    (HistoryMachine.initial_level Config.shipped).applied hloop hlast hempty
    (by rw [htracked, List.nil_append, hlength, hstock])
  rw [HistoryMachine.during_nil, htracked, List.nil_append,
    HistoryMachine.joined, if_pos (by rw [hlength, hstock])] at hrun
  have hfits : FitsThroughout Config.shipped repeatedDatagram :=
    fitsThroughout_of_length_lt (by rw [hlength]; norm_num)
  have htrace := (runState_simulates hfits).trace
  rcases HistoryMachine.trace_endBatch (HistoryMachine.initial.during 0
    (repeatedDatagram.flatMap Payload.records)) with ⟨tail, hbatch, _⟩
  refine ⟨tail, ?_⟩
  rw [htrace, HistoryMachine.run, hrun, hbatch]
  rfl

/-- The counter is satisfied with twenty stocks, each counted twenty times. -/
theorem serverGetAll_of_repeated_datagram :
    (∀ p ∈ repeatedDatagram, Sent Config.shipped pairQuotes p) ∧
      ∃ s, runPayloads Config.shipped repeatedDatagram = .ok () s ∧
        s.trace[400]? = some .serverGetAll ∧
        ¬ CompleteLoop Config.shipped (openBatch (s.trace.take 400)) := by
  have hlength : ((repeatedDatagram.flatMap Payload.records).map
      (Action.applied 0)).length = 400 := by
    rw [List.length_map, length_repeatedDatagram]
  rcases trace_repeatedDatagram with ⟨tail, htrace⟩
  refine ⟨?_, _, runPayloads_ok _ _, ?_, ?_⟩
  · intro p hp
    obtain ⟨rest, hrest⟩ := loopPayloads_eq_cons Config.shipped pairQuotes 0
    refine ⟨0, by norm_num, ?_⟩
    rw [List.eq_of_mem_replicate hp, hrest]
    exact List.mem_cons_self
  · rw [htrace, List.getElem?_append_right hlength.le, hlength]
    rfl
  · intro hcomplete
    have hopen := openBatch_applied [] 0
      (repeatedDatagram.flatMap Payload.records)
    rw [List.nil_append] at hopen
    rw [htrace, List.take_left' hlength, hopen] at hcomplete
    have hlast : Int32.ofNat 399 ∈ trackedIds Config.shipped :=
      mem_trackedIds.mpr ⟨399, by decide, rfl⟩
    rw [← hcomplete.1.mem_iff, List.mem_map] at hlast
    rcases hlast with ⟨counted, hcounted, heq⟩
    rcases List.mem_append.mp hcounted with hnil | hcounted
    · simp [openBatch] at hnil
    obtain ⟨st, hst, rfl⟩ := List.mem_map.mp hcounted
    obtain ⟨j, hj, hid⟩ := id_of_mem_repeatedDatagram hst
    have hint := congrArg Int32.toInt (hid.symm.trans heq)
    rw [Int32.toInt_ofNat_of_lt (by omega),
      Int32.toInt_ofNat_of_lt (by norm_num)] at hint
    omega

end StockFeed
