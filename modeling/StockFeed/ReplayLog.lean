import StockFeed.CaptureBounds

/-!
# The log is a replay of the run

`stocks.db` is an unframed file: the payloads of accepted frames one after the
other.  If all of them have the size of a datagram, the file can be cut into
blocks again.  A payload ignored by the done-loop filter is in the file as
well; on replay it meets the same `g_last_done_loop` and is ignored at the
same point.
-/

namespace StockFeed

open StateAction

/-- Cut a file into blocks of `n` bytes. -/
def cutBlocks (n : ℕ) (file : List UInt8) : List (List UInt8) :=
  (List.range (file.length / n)).map fun k => (file.drop (k * n)).take n

theorem cutBlocks_append
    {n : ℕ} {block : List UInt8} (hpos : 0 < n) (hlength : block.length = n)
    (file : List UInt8) :
    cutBlocks n (block ++ file) = block :: cutBlocks n file := by
  have hcount : (block ++ file).length / n = file.length / n + 1 := by
    rw [List.length_append, hlength, Nat.add_comm, Nat.add_div_right _ hpos]
  unfold cutBlocks
  rw [hcount, List.range_succ_eq_map, List.map_cons, List.map_map]
  congr 1
  · rw [Nat.zero_mul, List.drop_zero, List.take_left' hlength]
  · apply List.map_congr_left
    intro k _
    have hskip : (k + 1) * n = block.length + k * n := by
      rw [hlength, Nat.succ_mul, Nat.add_comm]
    simp only [Function.comp_apply]
    rw [hskip, List.drop_length_add_append]

theorem cutBlocks_flatten
    {n : ℕ} (hpos : 0 < n) {blocks : List (List UInt8)}
    (hblocks : ∀ block ∈ blocks, block.length = n) :
    cutBlocks n blocks.flatten = blocks := by
  induction blocks with
  | nil => simp [cutBlocks]
  | cons block rest ih =>
      rw [List.forall_mem_cons] at hblocks
      rw [List.flatten_cons, cutBlocks_append hpos hblocks.1, ih hblocks.2]

/-- Lines 178-216 on a payload without trailing bytes. -/
def handleBlock (cfg : Config) (block : List UInt8) : ServerM Unit :=
  handlePayload cfg block (Int32.ofNat block.length)

/-- Run the server on the blocks of a file. -/
def replay (cfg : Config) (file : List UInt8) :
    EStateM.Result Fault Server Unit :=
  forM (cutBlocks cfg.payloadSize file) (handleBlock cfg) (Server.initial cfg)

/-! ## The live run is a run over payloads -/

/-- The payloads the header checks let through, in order of arrival. -/
def acceptedPayloads (frames : List CapturedFrame) : List (List UInt8) :=
  (frames.filter fun frame => frame.Accepted).map fun frame => frame.payload

theorem deliver_captured
    (cfg : Config) (frame : CapturedFrame) (s : Server) :
    deliver cfg frame.toFrame s =
      if frame.Accepted then handleBlock cfg frame.payload s else .ok () s := by
  rw [deliver_apply]
  rcases skipHeaders_captured frame with
    ⟨haccepted, hskip⟩ | ⟨hrejected, line, hskip⟩
  · rw [hskip, if_pos haccepted]
    rfl
  · rw [hskip, if_neg hrejected]

theorem forM_deliver_captured
    (cfg : Config) (frames : List CapturedFrame) (s : Server) :
    forM (frames.map CapturedFrame.toFrame) (deliver cfg) s =
      forM (acceptedPayloads frames) (handleBlock cfg) s := by
  induction frames generalizing s with
  | nil => rfl
  | cons frame rest ih =>
      rw [List.map_cons, forM_cons_apply, deliver_captured]
      by_cases haccepted : frame.Accepted
      · have hsplit : acceptedPayloads (frame :: rest) =
            frame.payload :: acceptedPayloads rest := by
          simp [acceptedPayloads, haccepted]
        rw [if_pos haccepted, hsplit, forM_cons_apply]
        cases hresult : handleBlock cfg frame.payload s with
        | ok u s' => exact ih s'
        | error e s' => rfl
      · have hsplit : acceptedPayloads (frame :: rest) =
            acceptedPayloads rest := by
          simp [acceptedPayloads, haccepted]
        rw [if_neg haccepted, hsplit]
        exact ih s

/-! ## One block -/

theorem RecordStep.g_pFile_eq
    {cfg : Config} {loop_id : Int32} {st : Stock} {s s' : Server}
    (hstep : RecordStep cfg loop_id st s s') : s'.g_pFile = s.g_pFile := by
  cases hstep with
  | untracked _ => rfl
  | stored _ hquery _ =>
      rw [hquery.frame]
      rfl
  | @batch ok ok' s₁ s₂ _ hquery _ hagain =>
      have hfinish : (s₂.finish ok' loop_id).g_pFile = s₂.g_pFile := by
        unfold Server.finish
        split_ifs <;> rfl
      rw [hfinish, hagain.frame]
      simp only [Server.announce, Server.store]
      rw [hquery.frame]

theorem g_pFile_recordsState
    {cfg : Config} {s : Server} (hsound : s.Sound cfg)
    (loop_id : Int32) (records : List Stock) :
    (recordsState cfg loop_id s records).g_pFile = s.g_pFile := by
  induction records generalizing s with
  | nil => rfl
  | cons st rest ih =>
      have hstep := recordStep_recordState hsound loop_id st
      exact (ih (hstep.sound hsound)).trans hstep.g_pFile_eq

theorem g_pFile_payloadState
    {cfg : Config} {s : Server} (hsound : s.Sound cfg) (payload : Payload) :
    (payloadState cfg s payload).g_pFile = s.g_pFile := by
  unfold payloadState
  split_ifs
  · rfl
  · exact g_pFile_recordsState (hsound.withLastLoop payload.loop_id) _ _

theorem handleBlock_ok
    {cfg : Config} {s : Server} {block : List UInt8} {payload : Payload}
    (hsound : s.Sound cfg) (hlength : block.length = cfg.payloadSize)
    (hread : readDatagram cfg block = some payload) :
    handleBlock cfg block s = .ok () (payloadState cfg
      { s with g_pFile := s.g_pFile ++ block } payload) := by
  have hsize : cfg.payloadSize = cfg.groupStock * 20 + 4 := rfl
  have hbound := cfg.payloadSize_lt
  rcases readLoopId_of_length (by omega : 4 ≤ block.length) with
    ⟨loop_id, hloop, _⟩
  cases hrecords : decodeRecords cfg.groupStock (block.drop 4) with
  | none => simp [readDatagram, hloop, hrecords] at hread
  | some records =>
      have hpayload : payload = ⟨loop_id, records⟩ := by
        simp only [readDatagram, hloop, hrecords, Option.bind_eq_bind,
          Option.bind_some, Option.pure_def, Option.some.injEq] at hread
        exact hread.symm
      have hlogged : ({ s with
          g_pFile := s.g_pFile ++ block } : Server).Sound cfg :=
        ⟨hsound.keys, hsound.full, hsound.counter⟩
      subst hpayload
      rw [handleBlock, handlePayload_apply hloop (by omega),
        if_pos (by omega), decodeLoop_eq_forM hrecords]
      exact processPayload_ok hlogged ⟨loop_id, records⟩

theorem forM_handleBlock_ok
    {cfg : Config} {s : Server} {blocks : List (List UInt8)}
    (hsound : s.Sound cfg)
    (hblocks : ∀ block ∈ blocks, block.length = cfg.payloadSize) :
    ∃ s', forM blocks (handleBlock cfg) s = .ok () s' ∧
      s'.g_pFile = s.g_pFile ++ blocks.flatten := by
  induction blocks generalizing s with
  | nil => exact ⟨s, rfl, by simp⟩
  | cons block rest ih =>
      rw [List.forall_mem_cons] at hblocks
      obtain ⟨payload, hread, _⟩ := readDatagram_of_length hblocks.1.ge
      have hlogged : ({ s with
          g_pFile := s.g_pFile ++ block } : Server).Sound cfg :=
        ⟨hsound.keys, hsound.full, hsound.counter⟩
      have hfile := g_pFile_payloadState hlogged payload
      rcases ih (payloadState_sound hlogged payload) hblocks.2 with
        ⟨s', hrun, hrest⟩
      refine ⟨s', ?_, ?_⟩
      · rw [forM_cons_apply, handleBlock_ok hsound hblocks.1 hread]
        exact hrun
      · rw [hrest, hfile, List.append_assoc, List.flatten_cons]

/-! ## The whole run -/

/-- On frames which are rejected or carry exactly one datagram, the log is the
concatenation of the accepted payloads, and replaying it ends in the same
state as the live run, with the same trace. -/
theorem replay_stocksDb_eq_live
    (cfg : Config) (frames : List CapturedFrame)
    (hframes : ∀ frame ∈ frames, frame.Accepted →
      frame.payload.length = cfg.payloadSize) :
    ∃ s, runFrames cfg (frames.map CapturedFrame.toFrame) = .ok () s ∧
      s.g_pFile = (acceptedPayloads frames).flatten ∧
      replay cfg s.g_pFile = .ok () s := by
  have hblocks : ∀ block ∈ acceptedPayloads frames,
      block.length = cfg.payloadSize := by
    intro block hblock
    obtain ⟨frame, hframe, rfl⟩ := List.mem_map.mp hblock
    rw [List.mem_filter, decide_eq_true_eq] at hframe
    exact hframes frame hframe.1 hframe.2
  have hpos : 0 < cfg.payloadSize := Nat.succ_pos _
  rcases forM_handleBlock_ok (Server.initial_sound cfg) hblocks with
    ⟨s, hrun, hfile⟩
  have hlog : s.g_pFile = (acceptedPayloads frames).flatten := by
    rw [hfile]
    rfl
  refine ⟨s, ?_, hlog, ?_⟩
  · rw [runFrames, forM_deliver_captured]
    exact hrun
  · rw [replay, hlog, cutBlocks_flatten hpos hblocks]
    exact hrun

theorem replay_stocksDb_zeroGroup :
    let frames : List CapturedFrame :=
      [⟨⟨⟨0, 0⟩, 0, []⟩, rfl⟩,
        loopbackFrame (List.replicate 404 0) length_zeroGroup_lt]
    (∀ frame ∈ frames, frame.Accepted →
        frame.payload.length = Config.shipped.payloadSize) ∧
      ∃ s, runFrames Config.shipped (frames.map CapturedFrame.toFrame) =
          .ok () s ∧
        s.g_pFile = (acceptedPayloads frames).flatten ∧
        replay Config.shipped s.g_pFile = .ok () s := by
  intro frames
  have hframes : ∀ frame ∈ frames, frame.Accepted →
      frame.payload.length = Config.shipped.payloadSize := by
    rw [List.forall_mem_cons, List.forall_mem_singleton]
    constructor
    · intro haccepted
      have hlength := haccepted.1
      simp at hlength
    · intro _
      rw [loopbackFrame_payload, List.length_replicate]
      rfl
  exact ⟨hframes, replay_stocksDb_eq_live Config.shipped frames hframes⟩

end StockFeed
