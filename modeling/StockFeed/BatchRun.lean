import StockFeed.WindowBound

/-!
# Runs seen as batches

Between two resets of the counter the history machine collects a batch of
`SERVER_STOCK` applied records.  `during` is the machine in the middle of a
batch, `joined` the machine after some more of its records, with the batch
closed when it is full.

As long as no batch holds an id twice, all histories grow at the same pace:
a record then always finds room, the windows of the server stay bounded, and
the server follows the machine with no further condition.
-/

namespace StockFeed

namespace HistoryMachine

variable {cfg : Config} {start : HistoryMachine} {loop_id : Int32}

/-- `start` after the tracked records `seen` of one loop. -/
def during (start : HistoryMachine) (loop_id : Int32) (seen : List Stock) :
    HistoryMachine :=
  { start with
    history := seen.foldl append start.history
    applied := start.applied + seen.length
    trace := start.trace ++ seen.map (.applied loop_id) }

def joined (cfg : Config) (start : HistoryMachine) (loop_id : Int32)
    (batch : List Stock) : HistoryMachine :=
  if batch.length = cfg.serverStock then
    (start.during loop_id batch).endBatch cfg loop_id
  else start.during loop_id batch

def tracked (cfg : Config) (sts : List Stock) : List Stock :=
  sts.filter fun st => st.id_ ∈ trackedIds cfg

@[simp] theorem during_nil (start : HistoryMachine) (loop_id : Int32) :
    start.during loop_id [] = start := by
  simp [during]

theorem store_during (seen : List Stock) (st : Stock) :
    (start.during loop_id seen).store loop_id st =
      start.during loop_id (seen ++ [st]) := by
  simp [during, store, Nat.add_assoc]

theorem history_during (seen : List Stock) (id : Int32) :
    (start.during loop_id seen).history id =
      start.history id ++ closesOf id seen := by
  change seen.foldl append start.history id = _
  induction seen using List.reverseRecOn with
  | nil => simp [closesOf]
  | append_singleton seen st ih =>
      rw [List.foldl_append, List.foldl_cons, List.foldl_nil, closesOf_append,
        ← List.append_assoc, ← ih]
      by_cases heq : id = st.id_
      · subst heq
        simp [append, closesOf]
      · simp [append, Function.update_of_ne heq, closesOf, Ne.symm heq]

theorem joined_of_lt
    {seen : List Stock} (hlt : seen.length < cfg.serverStock) :
    joined cfg start loop_id seen = start.during loop_id seen := by
  rw [joined, if_neg (by omega)]

/-! ## Records of a batch -/

theorem record_untracked
    {st : Stock} (hid : st.id_ ∉ trackedIds cfg) (machine : HistoryMachine) :
    record cfg loop_id machine st = machine := by
  rw [record, if_neg hid]

theorem record_during
    {seen : List Stock} {st : Stock}
    (hbatch : start.applied % cfg.serverStock = 0)
    (hlt : seen.length < cfg.serverStock) (hid : st.id_ ∈ trackedIds cfg) :
    record cfg loop_id (start.during loop_id seen) st =
      joined cfg start loop_id (seen ++ [st]) := by
  have hmod : ((start.during loop_id seen).applied + 1) % cfg.serverStock =
      (seen.length + 1) % cfg.serverStock := by
    change (start.applied + seen.length + 1) % cfg.serverStock = _
    rw [Nat.add_assoc, Nat.add_mod, hbatch, Nat.zero_add, Nat.mod_mod]
  have hlength : (seen ++ [st]).length = seen.length + 1 := by simp
  rw [record, if_pos hid, hmod, store_during, joined, hlength]
  by_cases hfull : seen.length + 1 = cfg.serverStock
  · rw [if_pos hfull, hfull, Nat.mod_self, if_pos rfl]
  · rw [if_neg hfull, Nat.mod_eq_of_lt (by omega), if_neg (by omega)]

theorem records_untracked
    {sts : List Stock} (hnone : tracked cfg sts = [])
    (machine : HistoryMachine) : records cfg loop_id machine sts = machine := by
  induction sts with
  | nil => rfl
  | cons st rest ih =>
      rw [tracked, List.filter_eq_nil_iff] at hnone
      have hid : st.id_ ∉ trackedIds cfg := by
        simpa using hnone st (by simp)
      have hrest : tracked cfg rest = [] := by
        rw [tracked, List.filter_eq_nil_iff]
        exact fun other hother => hnone other (by simp [hother])
      rw [records, List.foldl_cons, record_untracked hid]
      exact ih hrest

theorem tracked_cons_of_mem
    {st : Stock} (hid : st.id_ ∈ trackedIds cfg) (rest : List Stock) :
    tracked cfg (st :: rest) = st :: tracked cfg rest := by
  simp [tracked, hid]

theorem tracked_cons_of_notMem
    {st : Stock} (hid : st.id_ ∉ trackedIds cfg) (rest : List Stock) :
    tracked cfg (st :: rest) = tracked cfg rest := by
  simp [tracked, hid]

theorem mem_trackedIds_of_mem_tracked
    {sts : List Stock} {st : Stock} (hmem : st ∈ tracked cfg sts) :
    st.id_ ∈ trackedIds cfg := by
  simpa using (List.mem_filter.mp hmem).2

theorem records_during
    {seen sts : List Stock} (hbatch : start.applied % cfg.serverStock = 0)
    (hlt : seen.length < cfg.serverStock)
    (hfits : (seen ++ tracked cfg sts).length ≤ cfg.serverStock) :
    records cfg loop_id (start.during loop_id seen) sts =
      joined cfg start loop_id (seen ++ tracked cfg sts) := by
  induction sts generalizing seen with
  | nil =>
      rw [tracked, List.filter_nil, List.append_nil, joined_of_lt hlt]
      rfl
  | cons st rest ih =>
      by_cases hid : st.id_ ∈ trackedIds cfg
      · rw [tracked_cons_of_mem hid] at hfits ⊢
        have hsplit : seen ++ st :: tracked cfg rest =
            seen ++ [st] ++ tracked cfg rest := by simp
        rw [hsplit] at hfits ⊢
        rw [records, List.foldl_cons, record_during hbatch hlt hid]
        by_cases hmore : (seen ++ [st]).length < cfg.serverStock
        · rw [joined_of_lt hmore]
          exact ih hmore hfits
        · have hnone : tracked cfg rest = [] := by
            rw [List.length_append] at hfits
            exact List.eq_nil_of_length_eq_zero (by omega)
          rw [hnone, List.append_nil]
          exact records_untracked hnone _
      · rw [tracked_cons_of_notMem hid] at hfits ⊢
        rw [records, List.foldl_cons, record_untracked hid]
        exact ih hlt hfits

/-! ## Batches without repetition -/

/-- A batch in the making: tracked ids, none of them twice. -/
structure Distinct (cfg : Config) (batch : List Stock) : Prop where
  tracked : ∀ st ∈ batch, st.id_ ∈ trackedIds cfg
  nodup : (batch.map Stock.id_).Nodup

theorem length_trackedIds (cfg : Config) :
    (trackedIds cfg).length = cfg.serverStock := by
  simp [trackedIds]

theorem Distinct.subperm
    {batch : List Stock} (hdistinct : Distinct cfg batch) :
    (batch.map Stock.id_).Subperm (trackedIds cfg) := by
  apply List.subperm_of_subset hdistinct.nodup
  intro id hid
  obtain ⟨st, hst, rfl⟩ := List.mem_map.mp hid
  exact hdistinct.tracked st hst

theorem Distinct.length_le
    {batch : List Stock} (hdistinct : Distinct cfg batch) :
    batch.length ≤ cfg.serverStock := by
  have hle := hdistinct.subperm.length_le
  rw [List.length_map, length_trackedIds] at hle
  exact hle

theorem Distinct.perm
    {batch : List Stock} (hdistinct : Distinct cfg batch)
    (hfull : batch.length = cfg.serverStock) :
    (batch.map Stock.id_).Perm (trackedIds cfg) := by
  apply hdistinct.subperm.perm_of_length_le
  rw [List.length_map, length_trackedIds, hfull]

theorem Distinct.sublist
    {part batch : List Stock} (hdistinct : Distinct cfg batch)
    (hpart : part.Sublist batch) : Distinct cfg part :=
  ⟨fun st hst => hdistinct.tracked st (hpart.mem hst),
    hdistinct.nodup.sublist (hpart.map Stock.id_)⟩

theorem Distinct.left
    {first second : List Stock} (hdistinct : Distinct cfg (first ++ second)) :
    Distinct cfg first :=
  hdistinct.sublist (List.sublist_append_left first second)

theorem length_closesOf (id : Int32) (batch : List Stock) :
    (closesOf id batch).length = (batch.map Stock.id_).count id := by
  induction batch with
  | nil => rfl
  | cons st rest ih =>
      rw [List.map_cons, List.count_cons, ← ih]
      by_cases heq : st.id_ = id
      · simp [closesOf, heq]
      · simp [closesOf, heq]

theorem Distinct.closesOf_eq
    {batch : List Stock} {st : Stock} (hdistinct : Distinct cfg batch)
    (hst : st ∈ batch) : closesOf st.id_ batch = [st.close_price_] := by
  have hlength : (closesOf st.id_ batch).length = 1 := by
    rw [length_closesOf]
    exact List.count_eq_one_of_mem hdistinct.nodup
      (List.mem_map.mpr ⟨st, hst, rfl⟩)
  have hmem : st.close_price_ ∈ closesOf st.id_ batch :=
    List.mem_map.mpr ⟨st, List.mem_filter.mpr ⟨hst, by simp⟩, rfl⟩
  obtain ⟨price, hprice⟩ := List.length_eq_one_iff.mp hlength
  rw [hprice, List.mem_singleton] at hmem
  rw [hprice, hmem]

/-! ## Histories of equal length -/

/-- A new batch begins, and all histories have `b` prices. -/
structure Level (cfg : Config) (b : ℕ) (machine : HistoryMachine) : Prop where
  applied : machine.applied % cfg.serverStock = 0
  history : ∀ id ∈ trackedIds cfg, (machine.history id).length = b

theorem initial_level (cfg : Config) : Level cfg 0 initial := by
  constructor
  · exact Nat.zero_mod _
  · exact fun _ _ => rfl

theorem Level.complete_iff
    {b : ℕ} {machine : HistoryMachine} (hlevel : Level cfg b machine) :
    Complete cfg machine.history ↔ cfg.priceListSize ≤ b := by
  constructor
  · intro hcomplete
    have hzero := zero_mem_trackedIds cfg
    rw [← hlevel.history 0 hzero]
    exact hcomplete 0 hzero
  · intro hle id hid
    rw [hlevel.history id hid]
    exact hle

@[simp] theorem history_endBatch (machine : HistoryMachine) :
    (machine.endBatch cfg loop_id).history = machine.history := by
  unfold endBatch
  split_ifs <;> rfl

@[simp] theorem applied_endBatch (machine : HistoryMachine) :
    (machine.endBatch cfg loop_id).applied = machine.applied := by
  unfold endBatch
  split_ifs <;> rfl

theorem lastDone_endBatch (machine : HistoryMachine) :
    (machine.endBatch cfg loop_id).lastDone = loop_id ∨
      (machine.endBatch cfg loop_id).lastDone = machine.lastDone := by
  unfold endBatch
  split_ifs
  · exact Or.inl rfl
  · exact Or.inr rfl

theorem trace_endBatch_of_complete
    {machine : HistoryMachine} (hlong : Complete cfg machine.history)
    (loop_id : Int32) :
    (machine.endBatch cfg loop_id).trace =
      machine.trace ++ [.serverGetAll] ++
        [.coefficient loop_id (windows cfg machine.history)] := by
  rw [endBatch, if_pos hlong, List.append_assoc]
  rfl

theorem trace_endBatch_of_not_complete
    {machine : HistoryMachine} (hshort : ¬ Complete cfg machine.history)
    (loop_id : Int32) :
    (machine.endBatch cfg loop_id).trace =
      machine.trace ++ [.serverGetAll] := by
  rw [endBatch, if_neg hshort]

theorem trace_endBatch (machine : HistoryMachine) :
    ∃ tail, (machine.endBatch cfg loop_id).trace =
        machine.trace ++ .serverGetAll :: tail ∧
      ∀ action ∈ tail, ∃ data, action = .coefficient loop_id data := by
  by_cases hlong : Complete cfg machine.history
  · refine ⟨[.coefficient loop_id (windows cfg machine.history)], ?_, ?_⟩
    · rw [trace_endBatch_of_complete hlong, List.append_assoc]
      rfl
    · intro action haction
      rw [List.mem_singleton] at haction
      exact ⟨_, haction⟩
  · exact ⟨[], trace_endBatch_of_not_complete hlong loop_id, by simp⟩

/-- A full batch of distinct tracked stocks has one price of each of them. -/
theorem Distinct.length_closesOf_eq_one
    {batch : List Stock} (hdistinct : Distinct cfg batch)
    (hfull : batch.length = cfg.serverStock) {id : Int32}
    (hid : id ∈ trackedIds cfg) : (closesOf id batch).length = 1 := by
  have hnodup : (trackedIds cfg).Nodup := (trackedIds_sorted cfg).imp ne_of_lt
  rw [length_closesOf, (hdistinct.perm hfull).count_eq,
    List.count_eq_one_of_mem hnodup hid]

theorem Level.endBatch
    {b : ℕ} {batch : List Stock} (hlevel : Level cfg b start)
    (hdistinct : Distinct cfg batch) (hfull : batch.length = cfg.serverStock)
    (loop_id : Int32) :
    Level cfg (b + 1) ((start.during loop_id batch).endBatch cfg loop_id) := by
  constructor
  · rw [applied_endBatch]
    change (start.applied + batch.length) % cfg.serverStock = 0
    rw [hfull, Nat.add_mod_right]
    exact hlevel.applied
  · intro id hid
    rw [history_endBatch, history_during, List.length_append,
      hlevel.history id hid, hdistinct.length_closesOf_eq_one hfull hid]

/-! ## Room -/

/-- The record finds room in the windows of a server with these histories. -/
def Room (cfg : Config) (machine : HistoryMachine) (st : Stock) : Prop :=
  st.id_ ∈ trackedIds cfg → Complete cfg machine.history ∨
    (machine.history st.id_).length < cfg.priceListSize

def RoomAlong (cfg : Config) (loop_id : Int32) :
    HistoryMachine → List Stock → Prop
  | _, [] => True
  | machine, st :: rest => Room cfg machine st ∧
      RoomAlong cfg loop_id (record cfg loop_id machine st) rest

def PayloadRoom (cfg : Config) (machine : HistoryMachine) (p : Payload) :
    Prop :=
  machine.lastDone = p.loop_id ∨ RoomAlong cfg p.loop_id machine p.records

def RunRoom (cfg : Config) : HistoryMachine → List Payload → Prop
  | _, [] => True
  | machine, p :: rest =>
      PayloadRoom cfg machine p ∧ RunRoom cfg (payload cfg machine p) rest

theorem Level.room
    {b : ℕ} {seen : List Stock} {st : Stock} (hlevel : Level cfg b start)
    (hnew : st.id_ ∉ seen.map Stock.id_) :
    Room cfg (start.during loop_id seen) st := by
  intro hid
  rcases lt_or_ge b cfg.priceListSize with hshort | hlong
  · right
    rw [history_during, List.length_append, hlevel.history _ hid,
      length_closesOf, List.count_eq_zero_of_not_mem hnew]
    omega
  · left
    intro id hidt
    rw [history_during, List.length_append, hlevel.history id hidt]
    omega

theorem roomAlong_untracked
    {sts : List Stock} (hnone : tracked cfg sts = [])
    (machine : HistoryMachine) : RoomAlong cfg loop_id machine sts := by
  induction sts generalizing machine with
  | nil => trivial
  | cons st rest ih =>
      by_cases hid : st.id_ ∈ trackedIds cfg
      · rw [tracked_cons_of_mem hid] at hnone
        simp at hnone
      · rw [tracked_cons_of_notMem hid] at hnone
        exact ⟨fun htracked => absurd htracked hid, ih hnone _⟩

theorem Level.roomAlong
    {b : ℕ} {seen sts : List Stock} (hlevel : Level cfg b start)
    (hlt : seen.length < cfg.serverStock)
    (hdistinct : Distinct cfg (seen ++ tracked cfg sts)) :
    RoomAlong cfg loop_id (start.during loop_id seen) sts := by
  induction sts generalizing seen with
  | nil => trivial
  | cons st rest ih =>
      by_cases hid : st.id_ ∈ trackedIds cfg
      · have hsplit : seen ++ tracked cfg (st :: rest) =
            seen ++ [st] ++ tracked cfg rest := by
          simp [tracked_cons_of_mem hid]
        rw [hsplit] at hdistinct
        have hnew : st.id_ ∉ seen.map Stock.id_ := by
          have hnodup := hdistinct.left.nodup
          rw [List.map_append, List.nodup_append'] at hnodup
          intro hmem
          exact hnodup.2.2 hmem (by simp)
        refine ⟨hlevel.room hnew, ?_⟩
        rw [record_during hlevel.applied hlt hid]
        by_cases hmore : (seen ++ [st]).length < cfg.serverStock
        · rw [joined_of_lt hmore]
          exact ih hmore hdistinct
        · have hle := hdistinct.length_le
          rw [List.length_append] at hle
          exact roomAlong_untracked
            (List.eq_nil_of_length_eq_zero (by omega)) _
      · rw [tracked_cons_of_notMem hid] at hdistinct
        refine ⟨fun htracked => absurd htracked hid, ?_⟩
        rw [record_untracked hid]
        exact ih hlt hdistinct

/-! ## Datagrams of a batch -/

theorem tracked_append (first second : List Stock) :
    tracked cfg (first ++ second) =
      tracked cfg first ++ tracked cfg second :=
  List.filter_append ..

theorem payload_untracked
    {p : Payload} (hnone : tracked cfg p.records = [])
    (machine : HistoryMachine) :
    PayloadRoom cfg machine p ∧ payload cfg machine p = machine := by
  refine ⟨Or.inr (roomAlong_untracked hnone machine), ?_⟩
  rw [payload, records_untracked hnone, ite_self]

theorem payload_during
    {seen : List Stock} {p : Payload}
    (hbatch : start.applied % cfg.serverStock = 0)
    (hlast : start.lastDone ≠ p.loop_id) (hlt : seen.length < cfg.serverStock)
    (hfits : (seen ++ tracked cfg p.records).length ≤ cfg.serverStock) :
    payload cfg (start.during p.loop_id seen) p =
      joined cfg start p.loop_id (seen ++ tracked cfg p.records) := by
  have hnot : (start.during p.loop_id seen).lastDone ≠ p.loop_id := hlast
  rw [payload, if_neg hnot]
  exact records_during hbatch hlt hfits

theorem payloads_untracked
    {ps : List Payload}
    (hnone : tracked cfg (ps.flatMap Payload.records) = [])
    (machine : HistoryMachine) :
    RunRoom cfg machine ps ∧ ps.foldl (payload cfg) machine = machine := by
  induction ps with
  | nil => exact ⟨trivial, rfl⟩
  | cons p rest ih =>
      rw [List.flatMap_cons, tracked_append, List.append_eq_nil_iff] at hnone
      have hone := payload_untracked hnone.1 machine
      have hrest := ih hnone.2
      rw [RunRoom, List.foldl_cons, hone.2]
      exact ⟨⟨hone.1, hrest.1⟩, hrest.2⟩

theorem foldl_payload_during
    {seen : List Stock} {ps : List Payload}
    (hbatch : start.applied % cfg.serverStock = 0)
    (hloop : ∀ p ∈ ps, p.loop_id = loop_id) (hlast : start.lastDone ≠ loop_id)
    (hlt : seen.length < cfg.serverStock)
    (hfits : (seen ++ tracked cfg (ps.flatMap Payload.records)).length ≤
      cfg.serverStock) :
    ps.foldl (payload cfg) (start.during loop_id seen) =
      joined cfg start loop_id
        (seen ++ tracked cfg (ps.flatMap Payload.records)) := by
  induction ps generalizing seen with
  | nil =>
      rw [List.flatMap_nil, tracked, List.filter_nil, List.append_nil,
        joined_of_lt hlt]
      rfl
  | cons p rest ih =>
      rw [List.forall_mem_cons] at hloop
      rw [List.flatMap_cons, tracked_append, ← List.append_assoc] at hfits ⊢
      have hle := hfits
      rw [List.length_append] at hle
      have hone := payload_during hbatch (by rw [hloop.1]; exact hlast) hlt
        (by omega : (seen ++ tracked cfg p.records).length ≤ cfg.serverStock)
      rw [hloop.1] at hone
      rw [List.foldl_cons, hone]
      by_cases hmore : (seen ++ tracked cfg p.records).length < cfg.serverStock
      · rw [joined_of_lt hmore]
        exact ih hloop.2 hmore hfits
      · have hnone : tracked cfg (rest.flatMap Payload.records) = [] :=
          List.eq_nil_of_length_eq_zero (by omega)
        rw [hnone, List.append_nil]
        exact (payloads_untracked hnone _).2

theorem Level.runRoom_during
    {b : ℕ} {seen : List Stock} {ps : List Payload}
    (hlevel : Level cfg b start) (hloop : ∀ p ∈ ps, p.loop_id = loop_id)
    (hlast : start.lastDone ≠ loop_id) (hlt : seen.length < cfg.serverStock)
    (hdistinct : Distinct cfg
      (seen ++ tracked cfg (ps.flatMap Payload.records))) :
    RunRoom cfg (start.during loop_id seen) ps := by
  induction ps generalizing seen with
  | nil => trivial
  | cons p rest ih =>
      rw [List.forall_mem_cons] at hloop
      rw [List.flatMap_cons, tracked_append, ← List.append_assoc] at hdistinct
      have hle := hdistinct.length_le
      rw [List.length_append] at hle
      have hone := payload_during hlevel.applied
        (by rw [hloop.1]; exact hlast) hlt hdistinct.left.length_le
      rw [hloop.1] at hone
      refine ⟨Or.inr ?_, ?_⟩
      · rw [hloop.1]
        exact hlevel.roomAlong hlt hdistinct.left
      · rw [hone]
        by_cases hmore : (seen ++ tracked cfg p.records).length <
            cfg.serverStock
        · rw [joined_of_lt hmore]
          exact ih hloop.2 hmore hdistinct
        · have hnone : tracked cfg (rest.flatMap Payload.records) = [] :=
            List.eq_nil_of_length_eq_zero (by omega)
          exact (payloads_untracked hnone _).1

theorem runRoom_append
    {machine : HistoryMachine} {first second : List Payload}
    (hfirst : RunRoom cfg machine first)
    (hsecond : RunRoom cfg (first.foldl (payload cfg) machine) second) :
    RunRoom cfg machine (first ++ second) := by
  induction first generalizing machine with
  | nil => exact hsecond
  | cons p rest ih => exact ⟨hfirst.1, ih hfirst.2 hsecond⟩

end HistoryMachine

/-! ## Servers which follow the machine -/

/-- The server simulates the machine and keeps its windows bounded. -/
structure Follows (cfg : Config) (s : Server) (machine : HistoryMachine) :
    Prop where
  sound : s.Sound cfg
  bounded : s.Bounded cfg
  simulates : Simulates cfg s machine

theorem initial_follows (cfg : Config) :
    Follows cfg (Server.initial cfg) HistoryMachine.initial := by
  refine ⟨Server.initial_sound cfg, ?_, initial_simulates cfg⟩
  intro id _
  simp

theorem Follows.relog
    {cfg : Config} {s : Server} {machine : HistoryMachine}
    (hfollows : Follows cfg s machine) (file : List UInt8) (loop_id : Int32) :
    Follows cfg { s with g_pFile := file, g_last_loop := loop_id } machine := by
  have hsound := hfollows.sound
  have hsim := hfollows.simulates
  exact ⟨⟨hsound.keys, hsound.full, hsound.counter⟩, hfollows.bounded,
    ⟨hsim.done, hsim.trace, hsim.counter,
      ⟨hsim.windowed.suffix, hsim.windowed.wholeOrFull,
        hsim.windowed.latched⟩⟩⟩

theorem Follows.hasRoom
    {cfg : Config} {s : Server} {machine : HistoryMachine} {st : Stock}
    (hfollows : Follows cfg s machine)
    (hroom : HistoryMachine.Room cfg machine st) : HasRoom cfg s st := by
  have hwindowed := hfollows.simulates.windowed
  intro hid
  rcases hroom hid with hcomplete | hshort
  · left
    intro id hidt
    rcases hwindowed.wholeOrFull id hidt with hwhole | hfull
    · rw [hwhole]
      exact hcomplete id hidt
    · exact hfull
  · right
    have hle := (hwindowed.suffix _ hid).length_le
    omega

theorem recordState_follows
    {cfg : Config} {s : Server} {machine : HistoryMachine} {st : Stock}
    (hfollows : Follows cfg s machine)
    (hroom : HistoryMachine.Room cfg machine st) (loop_id : Int32) :
    Follows cfg (recordState cfg loop_id s st)
      (HistoryMachine.record cfg loop_id machine st) := by
  have hstep := recordStep_recordState hfollows.sound loop_id st
  have hbounded := hstep.bounded hfollows.sound hfollows.bounded
    (hfollows.hasRoom hroom)
  exact ⟨hstep.sound hfollows.sound, hbounded,
    hstep.simulates hfollows.sound hfollows.bounded.fitsInt hbounded.fitsInt
      hfollows.simulates⟩

theorem recordsState_follows
    {cfg : Config} {s : Server} {machine : HistoryMachine} {loop_id : Int32}
    {records : List Stock} (hfollows : Follows cfg s machine)
    (hroom : HistoryMachine.RoomAlong cfg loop_id machine records) :
    Follows cfg (recordsState cfg loop_id s records)
      (HistoryMachine.records cfg loop_id machine records) := by
  induction records generalizing s machine with
  | nil => exact hfollows
  | cons st rest ih =>
      exact ih (recordState_follows hfollows hroom.1 loop_id) hroom.2

theorem payloadState_follows
    {cfg : Config} {s : Server} {machine : HistoryMachine} {p : Payload}
    (hfollows : Follows cfg s machine)
    (hroom : HistoryMachine.PayloadRoom cfg machine p) :
    Follows cfg (payloadState cfg s p)
      (HistoryMachine.payload cfg machine p) := by
  unfold payloadState HistoryMachine.payload
  rw [← hfollows.simulates.done]
  by_cases hdone : s.g_last_done_loop = p.loop_id
  · rw [if_pos hdone, if_pos hdone]
    exact hfollows
  · rw [if_neg hdone, if_neg hdone]
    apply recordsState_follows (hfollows.relog s.g_pFile p.loop_id)
    rcases hroom with hignored | hroom
    · exact absurd (hfollows.simulates.done.trans hignored) hdone
    · exact hroom

theorem foldl_payloadState_follows
    {cfg : Config} {s : Server} {machine : HistoryMachine} {ps : List Payload}
    (hfollows : Follows cfg s machine)
    (hroom : HistoryMachine.RunRoom cfg machine ps) :
    Follows cfg (ps.foldl (payloadState cfg) s)
      (ps.foldl (HistoryMachine.payload cfg) machine) := by
  induction ps generalizing s machine with
  | nil => exact hfollows
  | cons p rest ih => exact ih (payloadState_follows hfollows hroom.1) hroom.2

end StockFeed
