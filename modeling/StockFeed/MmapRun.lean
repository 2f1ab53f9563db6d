import StockFeed.MmapCapture

/-!
# What a capture delivers

In every interleaving of the thread with the kernel, the callback is given the
packets which the filter keeps, in the order of their arrival, each once and
cut at the snapshot length.  The packets which were in the ring before the
kernel had the filter are among those which are filtered again: the walk of
`pcap_setfilter_linux_mmap` counts at least as many, whatever the kernel adds
during the walk.
-/

namespace StockFeed
namespace Mmap

open Bpf RingQueue

/-! ## Filters on cut packets -/

/-- The frame with all bytes of a packet. -/
def Arrival.whole (a : Arrival) : RingFrame :=
  ⟨a, a.packet.length, le_rfl⟩

/-- The snapshot of the packet is in the slot. -/
def RingFrame.Full (frame : RingFrame) (sock : Socket) : Prop :=
  min frame.arrival.packet.length sock.snapshot.toNat ≤ frame.tp_snaplen

/-- The kernel's filters return what `bpf_filter` returns. -/
def Socket.KernelAgrees (sock : Socket) : Prop :=
  ∀ (prog : List Insn) (a : Arrival) (value : UInt32),
    (∀ mem, bpfFilter (some prog) a.whole.input mem prog.length =
      some (.ret value)) → sock.runFilter prog a.packet = value.toNat

/-- The filter returns the snapshot length for the packets to keep and 0 for
the others, and does not look behind the snapshot. -/
def Socket.Selects (sock : Socket) (keep : Packet → Prop) [DecidablePred keep] :
    Prop :=
  ∀ frame : RingFrame, frame.Full sock → ∀ mem,
    bpfFilter (some sock.filter) frame.input mem sock.filter.length =
      some (.ret (if keep frame.arrival.packet then sock.snapshot else 0))

/-- Whether the callback should see a packet. -/
def wanted (sock : Socket) (keep : Packet → Prop) [DecidablePred keep]
    (a : Arrival) : Bool :=
  decide (keep a.packet) && directionWanted sock a

/-- What the callback should be given for it. -/
def presented (snapshot : UInt32) (a : Arrival) : Frame :=
  present snapshot a.whole

theorem insertVlan_take
    (tag : Option UInt16) (bytes : Packet) {n s : ℕ} (hs : s ≤ n) :
    (insertVlan tag (bytes.take n)).take s = (insertVlan tag bytes).take s := by
  cases tag with
  | none => simp [insertVlan, List.take_take, hs]
  | some tci =>
      rcases Nat.le_total bytes.length n with hall | hcut
      · rw [List.take_of_length_le hall]
      · by_cases hn : 12 ≤ n
        · have hbytes : 12 ≤ bytes.length := hn.trans hcut
          simp only [insertVlan, List.length_take, min_eq_left hcut, if_pos hn,
            if_pos hbytes, List.take_take, min_eq_left hn, List.drop_take]
          have hbehind : s - (bytes.take 12 ++ vlanTag tci).length ≤ n - 12 := by
            simp only [List.length_append, List.length_take, vlanTag,
              List.length_cons, List.length_nil]
            omega
          conv_lhs => rw [List.take_append, List.take_take, min_eq_left hbehind]
          conv_rhs => rw [List.take_append]
        · have hshort : s ≤ 12 := by omega
          simp only [insertVlan, List.length_take, min_eq_left hcut, if_neg hn,
            List.take_take, min_eq_left hs]
          split_ifs with hbytes
          · rw [List.append_assoc, List.take_append_of_le_length, List.take_take,
              min_eq_left hshort]
            simpa [hbytes] using hshort
          · rfl

theorem le_length_insertVlan (tag : Option UInt16) (bytes : Packet) :
    bytes.length ≤ (insertVlan tag bytes).length := by
  unfold insertVlan
  split
  · split_ifs
    · simp [vlanTag]
      omega
    · rfl
  · rfl

/-- A frame with the snapshot in it looks as if the whole packet were in it. -/
theorem RingFrame.Full.present_eq
    {frame : RingFrame} {sock : Socket} (hfull : frame.Full sock) :
    present sock.snapshot frame = presented sock.snapshot frame.arrival := by
  have hwhole : frame.arrival.whole.bytes = frame.arrival.packet :=
    List.take_of_length_le le_rfl
  rw [presented, present, present, hwhole]
  change presentBytes _ _ _ = presentBytes _ frame.arrival.ts
    (insertVlan frame.arrival.vlan_tci frame.arrival.packet)
  rcases Nat.le_total frame.arrival.packet.length frame.tp_snaplen with hall | hcut
  · rw [RingFrame.bytes, List.take_of_length_le hall]
  · have hs : sock.snapshot.toNat ≤ frame.tp_snaplen ∨
        frame.arrival.packet.length ≤ frame.tp_snaplen := by
      have := hfull
      unfold RingFrame.Full at this
      omega
    rcases hs with hs | hall
    · have htake := insertVlan_take frame.arrival.vlan_tci frame.arrival.packet hs
      have hlength : sock.snapshot.toNat ≤
          (insertVlan frame.arrival.vlan_tci frame.bytes).length := by
        refine le_trans ?_ (le_length_insertVlan _ _)
        rw [RingFrame.bytes, List.length_take]
        omega
      have hlength' := (hs.trans hcut).trans
        (le_length_insertVlan frame.arrival.vlan_tci frame.arrival.packet)
      rw [presentBytes, presentBytes, min_eq_right hlength, min_eq_right hlength']
      exact congrArg _ htake
    · rw [RingFrame.bytes, List.take_of_length_le hall]

theorem capture_full
    {sock : Socket} {a : Arrival} {n : ℕ}
    (hroom : min a.packet.length sock.snapshot.toNat ≤ sock.room)
    (hn : min a.packet.length sock.snapshot.toNat ≤ n) :
    (capture sock.room n a).Full sock := by
  simp only [RingFrame.Full, capture]
  omega

/-! ## The invariant -/

section Capture

variable {cc : ℕ} {sock : Socket} {keep : Packet → Prop}

/-- The filter is installable, and the kernel and `bpf_filter` answer with the
packets to keep. -/
structure Socket.Filtered (sock : Socket) (keep : Packet → Prop)
    [DecidablePred keep] : Prop where
  installs : installBpfProgram sock.filter = some sock.filter
  snapshot_ne_zero : sock.snapshot ≠ 0
  selects : sock.Selects keep
  kernel : sock.KernelAgrees

/-- Every packet in the ring which is not among the next `use_bpf - 1` is one
to keep. -/
def Guarded (sock : Socket) (keep : Packet → Prop) (w : World cc)
    (ring : List RingFrame) : Prop :=
  w.use_bpf = 0 ∨ w.attached = some sock.filter ∧ 0 < w.use_bpf ∧
    ∀ frame ∈ ring.drop (w.use_bpf - 1), keep frame.arrival.packet

/-- What holds of the filter at each point of the thread. -/
def FilterState (sock : Socket) (keep : Packet → Prop) (w : World cc)
    (ring : List RingFrame) : Prop :=
  match w.phase with
  | .install => True
  | .attachTotal | .drain | .attach | .reset _ =>
      w.use_bpf = 0 ∧ w.fcode = some sock.filter
  | .count n position =>
      w.attached = some sock.filter ∧ w.fcode = some sock.filter ∧
        ∃ old ≤ ring.length, Walk w.offset position old n ∧
          ∀ frame ∈ ring.drop old, keep frame.arrival.packet
  | .poll _ | .read _ _ | .release _ _ =>
      w.fcode = some sock.filter ∧ Guarded sock keep w ring
  | .finished _ => True

theorem Guarded.snoc
    {w : World cc} {ring : List RingFrame} {frame : RingFrame}
    (hguarded : Guarded sock keep w ring)
    (hkeep : w.attached = some sock.filter → keep frame.arrival.packet) :
    Guarded sock keep w (ring ++ [frame]) := by
  rcases hguarded with hzero | ⟨hattached, hpositive, hrest⟩
  · exact Or.inl hzero
  · refine Or.inr ⟨hattached, hpositive, fun other hother => ?_⟩
    rw [List.drop_append, List.mem_append] at hother
    rcases hother with hold | hnew
    · exact hrest other hold
    · rw [List.mem_singleton.mp (List.mem_of_mem_drop hnew)]
      exact hkeep hattached

theorem FilterState.snoc
    {w : World cc} {ring : List RingFrame} {frame : RingFrame}
    (hstate : FilterState sock keep w ring)
    (hkeep : w.attached = some sock.filter → keep frame.arrival.packet) :
    FilterState sock keep w (ring ++ [frame]) := by
  unfold FilterState at hstate ⊢
  cases hphase : w.phase <;> simp only [hphase] at hstate ⊢
  case attachTotal | drain | attach | reset => exact hstate
  case count n position =>
    obtain ⟨hattached, hfcode, old, hold, hwalk, hrest⟩ := hstate
    refine ⟨hattached, hfcode, old, by simp; omega, hwalk, fun other hother => ?_⟩
    rw [List.drop_append_of_le_length hold, List.mem_append,
      List.mem_singleton] at hother
    rcases hother with hother | rfl
    · exact hrest other hother
    · exact hkeep hattached
  case poll | read | release => exact ⟨hstate.1, hstate.2.snoc hkeep⟩

variable [DecidablePred keep]

/-- The slots which have been read but not given back. -/
def Phase.held : Phase cc → ℕ
  | .release _ _ => 1
  | _ => 0

/-- `read` are the packets the thread is done with, `ring` the slots it has
not read. -/
structure Kept (sock : Socket) (keep : Packet → Prop) [DecidablePred keep]
    (w : World cc) (read : List Arrival) (ring : List RingFrame) : Prop where
  slots : ∃ held : List RingFrame, held.length = w.phase.held ∧
    Holds w.slots w.offset w.head (held ++ ring)
  queued : w.queued = read ++ ring.map RingFrame.arrival
  delivered : w.delivered =
    (read.filter (wanted sock keep)).map (presented sock.snapshot)
  full : ∀ frame ∈ ring, frame.Full sock
  fits : ∀ frame ∈ ring, frame.tp_snaplen ≤ sock.room
  attached : w.attached = none ∨ w.attached = some totalFcode ∨
    w.attached = some sock.filter
  filter : FilterState sock keep w ring

theorem World.initial_kept (hcc : 0 < cc) :
    Kept sock keep (World.initial hcc) [] [] where
  slots := ⟨[], rfl, Holds.empty _⟩
  queued := rfl
  delivered := rfl
  full := by simp
  fits := by simp
  attached := Or.inl rfl
  filter := trivial

/-! ## The kernel's steps -/

/-- What the kernel keeps of a packet has the snapshot in it, and is a packet
to keep if the filter is attached. -/
theorem Socket.Filtered.kernelKeeps
    (hsock : sock.Filtered keep) {attached : Option (List Insn)}
    (hattached : attached = none ∨ attached = some totalFcode ∨
      attached = some sock.filter) {a : Arrival} {n : ℕ}
    (hkeeps : kernelKeeps sock attached a = some n) :
    min a.packet.length sock.snapshot.toNat ≤ n ∧
      (attached = some sock.filter → keep a.packet) := by
  have hfilter : sock.runFilter sock.filter a.packet =
      (if keep a.packet then sock.snapshot else 0).toNat :=
    hsock.kernel _ _ _ fun mem =>
      hsock.selects a.whole (min_le_left _ _) mem
  have hkept : sock.runFilter sock.filter a.packet ≠ 0 →
      keep a.packet ∧ sock.runFilter sock.filter a.packet =
        sock.snapshot.toNat := by
    rw [hfilter]
    split_ifs with hkeep
    · exact fun _ => ⟨hkeep, rfl⟩
    · simp
  rcases hattached with rfl | rfl | rfl
  · simp only [Mmap.kernelKeeps, Option.some.injEq] at hkeeps
    exact ⟨by omega, by simp⟩
  · have hzero : sock.runFilter totalFcode a.packet = 0 :=
      hsock.kernel _ _ 0 fun mem => rfl
    simp [Mmap.kernelKeeps, hzero] at hkeeps
  · simp only [Mmap.kernelKeeps] at hkeeps
    split_ifs at hkeeps with hpositive
    obtain ⟨hkeep, hvalue⟩ := hkept hpositive
    rw [Option.some.injEq, hvalue] at hkeeps
    exact ⟨by omega, fun _ => hkeep⟩

theorem Kept.arrive
    (hsock : sock.Filtered keep) {w : World cc} {read : List Arrival}
    {ring : List RingFrame} (hkept : Kept sock keep w read ring) {a : Arrival}
    (hroom : min a.packet.length sock.snapshot.toNat ≤ sock.room) :
    ∃ ring, Kept sock keep (arrive sock w a) read ring := by
  unfold Mmap.arrive
  split
  next n hkeeps hfree =>
    obtain ⟨hn, hkeep⟩ := hsock.kernelKeeps hkept.attached hkeeps
    obtain ⟨held, hheld, hholds⟩ := hkept.slots
    refine ⟨ring ++ [capture sock.room n a], ⟨held, hheld, ?_⟩, ?_,
      hkept.delivered, ?_, ?_, hkept.attached, hkept.filter.snoc hkeep⟩
    · rw [← List.append_assoc]
      exact hholds.insert hfree _
    · rw [hkept.queued, List.map_append, List.append_assoc]
      rfl
    · intro frame hframe
      rw [List.mem_append, List.mem_singleton] at hframe
      rcases hframe with hframe | rfl
      · exact hkept.full frame hframe
      · exact capture_full hroom hn
    · intro frame hframe
      rw [List.mem_append, List.mem_singleton] at hframe
      rcases hframe with hframe | rfl
      · exact hkept.fits frame hframe
      · exact min_le_right _ _
  next => exact ⟨ring, hkept⟩

/-! ## The thread's steps -/

/-- What is decided about the next slot, with or without the filter. -/
theorem Guarded.passes
    (hsock : sock.Filtered keep) {w : World cc} {frame : RingFrame}
    {ring : List RingFrame} (hguarded : Guarded sock keep w (frame :: ring))
    (hfcode : w.fcode = some sock.filter) (hfull : frame.Full sock)
    (mem : Fin memWords → UInt32) :
    filterPasses w frame mem = some (decide (keep frame.arrival.packet)) ∧
    Guarded sock keep { w with use_bpf := (runBpf w.use_bpf).2 } ring := by
  have huser : userPasses w.fcode frame mem =
      some (decide (keep frame.arrival.packet)) := by
    simp only [userPasses, hfcode, hsock.selects frame hfull mem]
    by_cases hkeep : keep frame.arrival.packet
    · simp [hkeep, hsock.snapshot_ne_zero]
    · simp [hkeep]
  rcases hguarded with hzero | ⟨hattached, hpositive, hrest⟩
  · have hrun : runBpf w.use_bpf = (true, 0) := by simp [runBpf, hzero]
    rw [filterPasses, hrun]
    exact ⟨huser, Or.inl rfl⟩
  · rcases Nat.lt_or_ge 1 w.use_bpf with hmany | hone
    · have hrun : runBpf w.use_bpf = (true, w.use_bpf - 1) := by
        rw [runBpf, if_neg (by omega), if_pos hmany]
      have hdrop : (frame :: ring).drop (w.use_bpf - 1) =
          ring.drop (w.use_bpf - 1 - 1) := by
        rw [List.drop_cons (by omega)]
      rw [filterPasses, hrun]
      exact ⟨huser, Or.inr ⟨hattached, by simp only; omega, hdrop ▸ hrest⟩⟩
    · have huse : w.use_bpf = 1 := by omega
      have hrun : runBpf w.use_bpf = (false, 1) := by simp [runBpf, huse]
      rw [huse] at hrest
      have hkeep : keep frame.arrival.packet :=
        hrest frame List.mem_cons_self
      rw [filterPasses, hrun]
      refine ⟨by simp [hkeep], Or.inr ⟨hattached, Nat.one_pos, fun other hother => ?_⟩⟩
      exact hrest other (List.mem_cons_of_mem frame hother)

/-- The next slot is read: it is given to the callback if it is wanted. -/
theorem Kept.readFrame
    (hsock : sock.Filtered keep) {w : World cc} {read : List Arrival}
    {frame : RingFrame} {ring : List RingFrame} {cnt : ℤ} {pkts : ℕ}
    (hphase : w.phase = .read cnt pkts)
    (hkept : Kept sock keep w read (frame :: ring))
    (mem : Fin memWords → UInt32) :
    ∃ w' pkts', readFrame sock w cnt pkts frame mem = some w' ∧
      w'.phase = .release cnt pkts' ∧ w'.queued = w.queued ∧
      Kept sock keep w' (read ++ [frame.arrival]) ring := by
  obtain ⟨held, hheld, hholds⟩ := hkept.slots
  rw [hphase] at hheld
  obtain rfl := List.length_eq_zero_iff.mp hheld
  have hfilter := hkept.filter
  simp only [FilterState, hphase] at hfilter
  obtain ⟨hfcode, hguarded⟩ := hfilter
  have hfull := hkept.full frame List.mem_cons_self
  obtain ⟨hpasses, hguarded'⟩ := hguarded.passes hsock hfcode hfull mem
  have hrest : ∀ other ∈ ring, other.Full sock := fun other hother =>
    hkept.full other (List.mem_cons_of_mem frame hother)
  have hfits : ∀ other ∈ ring, other.tp_snaplen ≤ sock.room := fun other hother =>
    hkept.fits other (List.mem_cons_of_mem frame hother)
  have hsane := hkept.fits frame List.mem_cons_self
  have hqueued : w.queued = (read ++ [frame.arrival]) ++
      ring.map RingFrame.arrival := by
    rw [hkept.queued, List.map_cons, List.append_assoc]
    rfl
  unfold Mmap.readFrame
  rw [if_neg (by omega), hpasses]
  simp only [Option.map_some]
  by_cases hwanted : wanted sock keep frame.arrival = true
  · rw [wanted] at hwanted
    rw [if_pos hwanted]
    refine ⟨_, pkts + 1, rfl, rfl, rfl, ⟨[frame], rfl, hholds⟩, hqueued, ?_,
      hrest, hfits, hkept.attached, hfcode, hguarded'⟩
    simp only [hkept.delivered, hfull.present_eq, List.filter_append,
      List.map_append, List.filter_cons, wanted, hwanted, List.filter_nil,
      if_true, List.map_cons, List.map_nil]
  · rw [wanted] at hwanted
    rw [if_neg hwanted]
    refine ⟨_, pkts, rfl, rfl, rfl, ⟨[frame], rfl, hholds⟩, hqueued, ?_,
      hrest, hfits, hkept.attached, hfcode, hguarded'⟩
    simp only [hkept.delivered, List.filter_append, List.filter_cons, wanted,
      hwanted, List.filter_nil, Bool.false_eq_true, if_false, List.append_nil]

/-- A step which leaves the ring as it is. -/
theorem Kept.move
    {w : World cc} {read : List Arrival} {ring : List RingFrame}
    {attached fcode : Option (List Insn)} {use_bpf : ℕ} {phase : Phase cc}
    (hkept : Kept sock keep w read ring) (hheld : w.phase.held = phase.held)
    (hattached : attached = none ∨ attached = some totalFcode ∨
      attached = some sock.filter)
    (hfilter : FilterState sock keep { w with
      attached := attached, use_bpf := use_bpf, fcode := fcode, phase := phase }
      ring) :
    Kept sock keep { w with
      attached := attached, use_bpf := use_bpf, fcode := fcode, phase := phase }
      read ring where
  slots := hheld ▸ hkept.slots
  queued := hkept.queued
  delivered := hkept.delivered
  full := hkept.full
  fits := hkept.fits
  attached := hattached
  filter := hfilter

theorem Kept.installStep
    (hsock : sock.Filtered keep) {w : World cc} {read : List Arrival}
    {ring : List RingFrame} (hkept : Kept sock keep w read ring)
    (hphase : w.phase = .install) :
    Kept sock keep (installStep sock w) read ring := by
  simp only [Mmap.installStep, hsock.installs]
  refine hkept.move ?_ hkept.attached ?_
  · rw [hphase]
    split_ifs <;> rfl
  · split_ifs <;> exact ⟨rfl, rfl⟩

theorem Kept.countStep
    {w : World cc} {read : List Arrival} {ring : List RingFrame} {n : ℕ}
    {position : Fin cc} (hkept : Kept sock keep w read ring)
    (hphase : w.phase = .count n position) :
    Kept sock keep (countStep sock w n position) read ring := by
  have hfilter := hkept.filter
  simp only [FilterState, hphase] at hfilter
  obtain ⟨hattached, hfcode, old, hold, hwalk, hrest⟩ := hfilter
  obtain ⟨held, hheld, hholds⟩ := hkept.slots
  rw [hphase] at hheld
  obtain rfl := List.length_eq_zero_iff.mp hheld
  unfold Mmap.countStep
  split_ifs with hfree
  · have hslot := Option.isNone_iff_eq_none.mp hfree.2
    refine hkept.move (by rw [hphase]; rfl) hkept.attached ?_
    exact ⟨hattached, hfcode, old, hold, hwalk.free hfree.1 hholds hold hslot,
      hrest⟩
  · refine hkept.move (by rw [hphase]; rfl) hkept.attached ?_
    refine ⟨hfcode, Or.inr ⟨hattached, by simp only; omega, fun frame hframe => ?_⟩⟩
    have hcounted := hwalk.old_le (hold.trans hholds.length_le)
    refine hrest frame (List.mem_of_mem_drop (i := 1 + (cc - n) - 1 - old) ?_)
    rw [List.drop_drop, Nat.add_sub_cancel' (by omega)]
    exact hframe

/-- No phase but the last is stuck, and each keeps the invariant. -/
theorem Kept.thread
    (hsock : sock.Filtered keep) {w : World cc} {read : List Arrival}
    {ring : List RingFrame} (hkept : Kept sock keep w read ring)
    (hphase : ∀ result, w.phase ≠ .finished result) (ok : Bool)
    (mem : Fin memWords → UInt32) :
    ∃ w' read' ring', threadStep sock w ok mem = some w' ∧
      Kept sock keep w' read' ring' := by
  have hfilter := hkept.filter
  unfold FilterState at hfilter
  unfold threadStep
  cases hcase : w.phase <;> simp only [hcase] at hfilter ⊢
  case finished result => exact absurd hcase (hphase result)
  case install => exact ⟨_, read, ring, rfl, hkept.installStep hsock hcase⟩
  case count n position =>
    exact ⟨_, read, ring, rfl, hkept.countStep hcase⟩
  case attachTotal =>
    refine ⟨_, read, ring, rfl, ?_⟩
    split_ifs
    · exact hkept.move (by rw [hcase]; rfl) (Or.inr (Or.inl rfl)) hfilter
    · exact hkept.move (by rw [hcase]; rfl) hkept.attached hfilter
  case drain =>
    refine ⟨_, read, ring, rfl, ?_⟩
    split_ifs
    · exact hkept.move (by rw [hcase]; rfl) hkept.attached hfilter
    · exact hkept.move (by rw [hcase]; rfl) hkept.attached hfilter
  case attach =>
    refine ⟨_, read, ring, rfl, ?_⟩
    split_ifs
    · refine hkept.move (by rw [hcase]; rfl) (Or.inr (Or.inr hfilter.2)) ?_
      exact ⟨hfilter.2, hfilter.2, ring.length, le_rfl, Walk.start _ _, by simp⟩
    · exact hkept.move (by rw [hcase]; rfl) hkept.attached hfilter
  case reset fatal =>
    have hattached : (if ok then none else w.attached) = none ∨
        (if ok then none else w.attached) = some totalFcode ∨
        (if ok then none else w.attached) = some sock.filter := by
      split_ifs
      · exact Or.inl rfl
      · exact hkept.attached
    refine ⟨_, read, ring, rfl, ?_⟩
    cases fatal with
    | true => exact hkept.move (by rw [hcase]; rfl) hattached trivial
    | false =>
        exact hkept.move (by rw [hcase]; rfl) hattached
          ⟨hfilter.2, Or.inl hfilter.1⟩
  case poll cnt =>
    refine ⟨_, read, ring, rfl, hkept.move ?_ hkept.attached ?_⟩
    · rw [hcase]
      split_ifs <;> rfl
    · split_ifs
      · exact hfilter
      · trivial
  case read cnt pkts =>
    have hreturn : Kept sock keep { w with phase := returnRead cnt pkts } read
        ring := by
      refine hkept.move ?_ hkept.attached ?_
      · rw [hcase]
        unfold returnRead
        split_ifs <;> rfl
      · unfold returnRead
        split_ifs <;> first | exact hfilter | trivial
    obtain ⟨held, hheld, hholds⟩ := hkept.slots
    rw [hcase] at hheld
    obtain rfl := List.length_eq_zero_iff.mp hheld
    have hslot := hholds.slot_offset
    split_ifs
    · cases ring with
      | nil =>
          rw [hslot]
          exact ⟨_, read, [], rfl, hreturn⟩
      | cons frame rest =>
          rw [hslot]
          obtain ⟨w', _, hread, _, _, hkept'⟩ := hkept.readFrame hsock hcase mem
          exact ⟨w', _, rest, hread, hkept'⟩
    · exact ⟨_, read, ring, rfl, hreturn⟩
  case release cnt pkts =>
    obtain ⟨held, hheld, hholds⟩ := hkept.slots
    rw [hcase] at hheld
    obtain ⟨frame, rfl⟩ := List.length_eq_one_iff.mp hheld
    exact ⟨_, read, ring, rfl, ⟨[], rfl, hholds.remove⟩, hkept.queued,
      hkept.delivered, hkept.full, hkept.fits, hkept.attached, hfilter⟩

/-! ## Counting the packets -/

/-- Of a positive number of packets, `cnt - pkts` are still to come. -/
def Counted (sock : Socket) (w : World cc) : Prop :=
  match w.phase with
  | .install | .attachTotal | .drain | .attach | .reset _ | .count _ _ =>
      w.delivered = []
  | .poll cnt => 0 < cnt ∧ w.delivered.length + cnt = sock.cnt
  | .read cnt pkts | .release cnt pkts =>
      0 < cnt ∧ pkts ≤ cnt ∧ w.delivered.length + (cnt - pkts) = sock.cnt
  | .finished result =>
      w.delivered.length ≤ sock.cnt ∧
        (result = 0 → w.delivered.length = sock.cnt)

omit [DecidablePred keep] in
theorem counted_returnRead
    {w : World cc} {cnt : ℤ} {pkts : ℕ} (hphase : w.phase = .read cnt pkts)
    (hcounted : Counted sock w) :
    Counted sock { w with phase := returnRead cnt pkts } := by
  simp only [Counted, hphase] at hcounted
  unfold returnRead
  split_ifs with hzero hpositive hlast
  · subst hzero
    exact ⟨hcounted.1, by simpa using hcounted.2.2⟩
  · have hall : (w.delivered.length : ℤ) = sock.cnt := by omega
    exact ⟨hall.le, fun _ => hall⟩
  · exact ⟨by omega, by simpa using hcounted.2.2⟩
  · omega

theorem counted_readFrame
    {w w' : World cc} {cnt : ℤ} {pkts : ℕ} {frame : RingFrame}
    {mem : Fin memWords → UInt32} (hphase : w.phase = .read cnt pkts)
    (hmore : pkts < cnt) (hcounted : Counted sock w)
    (hread : readFrame sock w cnt pkts frame mem = some w') :
    Counted sock w' := by
  simp only [Counted, hphase] at hcounted
  unfold readFrame at hread
  split at hread
  · obtain rfl := Option.some.inj hread
    exact ⟨by simp only; omega, by simp⟩
  · obtain ⟨passes, _, rfl⟩ := Option.map_eq_some_iff.mp hread
    split_ifs
    · refine ⟨hcounted.1, by omega, ?_⟩
      rw [List.length_append, List.length_singleton]
      omega
    · exact hcounted

omit [DecidablePred keep] in
/-- A call has failed before anything was delivered. -/
theorem counted_failed
    {w : World cc} (hcnt : 0 < sock.cnt) (hnone : w.delivered = []) :
    Counted sock { w with phase := .finished (-1) } :=
  ⟨by simp [hnone, hcnt.le], by simp⟩

omit [DecidablePred keep] in
/-- `pcap_loop` is called. -/
theorem counted_begun
    {w : World cc} (hcnt : 0 < sock.cnt) (hnone : w.delivered = []) :
    Counted sock { w with phase := .poll sock.cnt } :=
  ⟨hcnt, by simp [hnone]⟩

theorem counted_thread
    (hcnt : 0 < sock.cnt) {w w' : World cc} {ok : Bool}
    {mem : Fin memWords → UInt32} (hcounted : Counted sock w)
    (hstep : threadStep sock w ok mem = some w') : Counted sock w' := by
  have hstate := hcounted
  unfold Counted at hstate
  unfold threadStep at hstep
  cases hphase : w.phase <;> simp only [hphase] at hstate hstep
  case finished => cases hstep
  case read cnt pkts =>
    split at hstep
    case isTrue hmore =>
      split at hstep
      · obtain rfl := Option.some.inj hstep
        exact counted_returnRead hphase hcounted
      · exact counted_readFrame hphase (by omega) hcounted hstep
    case isFalse =>
      obtain rfl := Option.some.inj hstep
      exact counted_returnRead hphase hcounted
  all_goals obtain rfl := Option.some.inj hstep
  case release cnt pkts => exact hstate
  case install =>
    unfold installStep
    split
    · exact counted_failed hcnt hstate
    · split_ifs <;> exact hstate
  case count n position =>
    unfold countStep
    split_ifs
    · exact hstate
    · exact counted_begun hcnt hstate
  case attachTotal => split_ifs <;> exact hstate
  case drain => split_ifs <;> exact hstate
  case attach => split_ifs <;> exact hstate
  case reset fatal =>
    cases fatal with
    | true => exact counted_failed hcnt hstate
    | false => exact counted_begun hcnt hstate
  case poll cnt =>
    split_ifs
    · exact ⟨hstate.1, by simpa using hstate.1.le, by simpa using hstate.2⟩
    · exact ⟨by simp only; omega, by simp⟩

/-! ## Runs -/

theorem Kept.run
    (hsock : sock.Filtered keep) {run : List Action}
    (hroom : ∀ a, .arrive a ∈ run →
      min a.packet.length sock.snapshot.toNat ≤ sock.room)
    {w w' : World cc} {read : List Arrival} {ring : List RingFrame}
    (hkept : Kept sock keep w read ring) (hrun : steps sock w run = some w') :
    ∃ read ring, Kept sock keep w' read ring := by
  induction run generalizing w read ring with
  | nil =>
      obtain rfl := Option.some.inj hrun
      exact ⟨read, ring, hkept⟩
  | cons action rest ih =>
      rw [steps] at hrun
      obtain ⟨next, hstep, hrest⟩ := Option.bind_eq_some_iff.mp hrun
      have hroom' := fun a ha => hroom a (List.mem_cons_of_mem action ha)
      cases action with
      | arrive a =>
          obtain rfl := Option.some.inj hstep
          obtain ⟨ring', hkept'⟩ :=
            hkept.arrive hsock (hroom a List.mem_cons_self)
          exact ih hroom' hkept' hrest
      | thread ok mem =>
          have hphase : ∀ result, w.phase ≠ .finished result := by
            intro result hphase
            rw [step, threadStep, hphase] at hstep
            cases hstep
          obtain ⟨w'', read', ring', hthread, hkept'⟩ :=
            hkept.thread hsock hphase ok mem
          obtain rfl := Option.some.inj (hthread.symm.trans hstep)
          exact ih hroom' hkept' hrest

theorem queued_thread
    {w w' : World cc} {ok : Bool} {mem : Fin memWords → UInt32}
    (hstep : threadStep sock w ok mem = some w') : w'.queued = w.queued := by
  have hread : ∀ cnt pkts frame, readFrame sock w cnt pkts frame mem = some w' →
      w'.queued = w.queued := by
    intro cnt pkts frame hread
    unfold readFrame at hread
    split at hread
    · obtain rfl := Option.some.inj hread
      rfl
    · obtain ⟨passes, _, rfl⟩ := Option.map_eq_some_iff.mp hread
      split_ifs <;> rfl
  unfold threadStep at hstep
  cases hphase : w.phase <;> simp only [hphase] at hstep
  case finished => cases hstep
  case read cnt pkts =>
    split at hstep
    · split at hstep
      · obtain rfl := Option.some.inj hstep
        rfl
      · exact hread _ _ _ hstep
    · obtain rfl := Option.some.inj hstep
      rfl
  all_goals obtain rfl := Option.some.inj hstep
  case install =>
    unfold installStep
    split <;> rfl
  case count =>
    unfold countStep
    split_ifs <;> rfl
  case attachTotal | attach => split_ifs <;> rfl
  all_goals rfl

/-- The kernel puts nothing into the ring which did not arrive. -/
theorem mem_run_of_queued
    {run : List Action} {w w' : World cc} (hrun : steps sock w run = some w')
    {a : Arrival} (ha : a ∈ w'.queued) : a ∈ w.queued ∨ .arrive a ∈ run := by
  induction run generalizing w with
  | nil =>
      obtain rfl := Option.some.inj hrun
      exact Or.inl ha
  | cons action rest ih =>
      rw [steps] at hrun
      obtain ⟨next, hstep, hrest⟩ := Option.bind_eq_some_iff.mp hrun
      rcases ih hrest with hnext | hmem
      · cases action with
        | arrive b =>
            obtain rfl := Option.some.inj hstep
            unfold arrive at hnext
            split at hnext
            · rcases List.mem_append.mp hnext with hold | hnew
              · exact Or.inl hold
              · rw [List.mem_singleton.mp hnew]
                exact Or.inr List.mem_cons_self
            · exact Or.inl hnext
        | thread ok mem => exact Or.inl (queued_thread hstep ▸ hnext)
      · exact Or.inr (List.mem_cons_of_mem action hmem)

omit [DecidablePred keep] in
theorem counted_steps
    (hcnt : 0 < sock.cnt) {run : List Action} {w w' : World cc}
    (hcounted : Counted sock w) (hrun : steps sock w run = some w') :
    Counted sock w' := by
  induction run generalizing w with
  | nil =>
      obtain rfl := Option.some.inj hrun
      exact hcounted
  | cons action rest ih =>
      rw [steps] at hrun
      obtain ⟨next, hstep, hrest⟩ := Option.bind_eq_some_iff.mp hrun
      refine ih ?_ hrest
      cases action with
      | arrive a =>
          obtain rfl := Option.some.inj hstep
          unfold arrive
          split <;> exact hcounted
      | thread ok mem => exact counted_thread hcnt hcounted hstep

theorem Counted.length_le
    {w : World cc} (hcnt : 0 < sock.cnt) (hcounted : Counted sock w) :
    w.delivered.length ≤ sock.cnt ∧
      (w.phase = .finished 0 → w.delivered.length = sock.cnt) := by
  unfold Counted at hcounted
  cases hphase : w.phase <;> simp only [hphase] at hcounted
  case finished result =>
    exact ⟨hcounted.1, fun h => hcounted.2 (Phase.finished.inj h)⟩
  all_goals refine ⟨?_, fun h => by cases h⟩
  case poll | read | release => omega
  all_goals simp [hcounted, hcnt.le]

/-! ## Emptying the ring -/

/-- The thread is in `pcap_loop`. -/
def Phase.looping : Phase cc → Prop
  | .poll _ | .read _ _ | .release _ _ => True
  | _ => False

/-- The thread's steps until `n` slots have been read. -/
def Phase.turns (n : ℕ) : Phase cc → ℕ
  | .read _ _ => 3 * n
  | _ => 3 * n + 1

/-- Outcome and scratch memory of a step. -/
abbrev Call := Bool × (Fin memWords → UInt32)

def threadActions (calls : List Call) : List Action :=
  calls.map fun call => .thread call.1 call.2

/-- Everything in the ring has been read, or the count is complete. -/
def CaughtUp (sock : Socket) (keep : Packet → Prop) [DecidablePred keep]
    (queued : List Arrival) (w : World cc) : Prop :=
  w.phase = .finished 0 ∨
    w.delivered = (queued.filter (wanted sock keep)).map
      (presented sock.snapshot)

theorem Kept.all_delivered
    {w : World cc} {read : List Arrival} (hkept : Kept sock keep w read []) :
    CaughtUp sock keep w.queued w := by
  refine Or.inr ?_
  rw [hkept.delivered, hkept.queued, List.map_nil, List.append_nil]

/-- While there are slots to read, each step of the thread brings it nearer to
the end of them. -/
theorem Kept.turn
    (hsock : sock.Filtered keep) {w : World cc} {read : List Arrival}
    {frame : RingFrame} {ring : List RingFrame}
    (hkept : Kept sock keep w read (frame :: ring)) (hloop : w.phase.looping)
    (ok : Bool) (mem : Fin memWords → UInt32) :
    ∃ w', threadStep sock w ok mem = some w' ∧ w'.queued = w.queued ∧
      (w'.phase = .finished 0 ∨
        ∃ read' ring', Kept sock keep w' read' ring' ∧ w'.phase.looping ∧
          w'.phase.turns ring'.length < w.phase.turns (ring.length + 1)) := by
  have hfilter := hkept.filter
  obtain ⟨held, hheld, hholds⟩ := hkept.slots
  unfold FilterState at hfilter
  unfold threadStep
  cases hcase : w.phase <;> simp only [hcase, Phase.looping] at hfilter hloop ⊢
  case poll cnt =>
    rw [hcase] at hheld
    obtain rfl := List.length_eq_zero_iff.mp hheld
    rw [hholds.slot_offset]
    refine ⟨_, rfl, rfl, Or.inr ⟨read, frame :: ring,
      hkept.move (by rw [hcase]; rfl) hkept.attached hfilter, trivial, ?_⟩⟩
    exact Nat.lt_succ_self _
  case read cnt pkts =>
    rw [hcase] at hheld
    obtain rfl := List.length_eq_zero_iff.mp hheld
    rw [hholds.slot_offset]
    split_ifs with hmore
    · obtain ⟨w', pkts', hread, hphase', hqueued, hkept'⟩ :=
        hkept.readFrame hsock hcase mem
      refine ⟨w', hread, hqueued, Or.inr ⟨_, ring, hkept', ?_, ?_⟩⟩
      · rw [hphase']
        trivial
      · rw [hphase']
        simp only [Phase.turns]
        omega
    · refine ⟨_, rfl, rfl, Or.inl ?_⟩
      simp only [returnRead]
      rw [if_neg (by omega), if_pos (by omega), if_pos (by omega)]
  case release cnt pkts =>
    rw [hcase] at hheld
    obtain ⟨last, rfl⟩ := List.length_eq_one_iff.mp hheld
    refine ⟨_, rfl, rfl, Or.inr ⟨read, frame :: ring, ⟨⟨[], rfl, hholds.remove⟩,
      hkept.queued, hkept.delivered, hkept.full, hkept.fits, hkept.attached,
      hfilter⟩, trivial, ?_⟩⟩
    exact Nat.lt_succ_self _

theorem Kept.catchUp
    (hsock : sock.Filtered keep) {calls : List Call} {w : World cc}
    {read : List Arrival} {ring : List RingFrame}
    (hkept : Kept sock keep w read ring) (hloop : w.phase.looping)
    (hcalls : w.phase.turns ring.length ≤ calls.length) :
    ∃ n w', steps sock w (threadActions (calls.take n)) = some w' ∧
      CaughtUp sock keep w.queued w' := by
  induction calls generalizing w read ring with
  | nil =>
      cases ring with
      | nil => exact ⟨0, w, rfl, hkept.all_delivered⟩
      | cons frame ring =>
          simp only [List.length_nil, List.length_cons] at hcalls
          cases hcase : w.phase <;>
            simp only [hcase, Phase.turns, Phase.looping] at hcalls hloop <;> omega
  | cons call rest ih =>
      cases ring with
      | nil => exact ⟨0, w, rfl, hkept.all_delivered⟩
      | cons frame ring =>
          obtain ⟨next, hstep, hqueued, hdone | hmore⟩ :=
            hkept.turn hsock hloop call.1 call.2
          · refine ⟨1, next, ?_, Or.inl hdone⟩
            simp [threadActions, steps, step, hstep]
          · obtain ⟨read', ring', hkept', hloop', hturns⟩ := hmore
            simp only [List.length_cons] at hcalls
            obtain ⟨n, w', hrun, hcaught⟩ := ih hkept' hloop' (by omega)
            refine ⟨n + 1, w', ?_, hqueued ▸ hcaught⟩
            simpa [threadActions, steps, step, hstep] using hrun

theorem Kept.length_le
    {w : World cc} {read : List Arrival} {ring : List RingFrame}
    (hkept : Kept sock keep w read ring) : ring.length ≤ cc := by
  obtain ⟨held, _, hholds⟩ := hkept.slots
  have hle := hholds.length_le
  rw [List.length_append] at hle
  omega

end Capture

/-! ## The capture -/

/-- The kernel's filters as `bpf_filter` runs them. -/
def kernelFilter (prog : List Insn) (packet : Packet) : ℕ :=
  if h : packet.length < 2 ^ 31 then
    match bpfFilter (some prog) ⟨packet, UInt32.ofNat packet.length, h⟩
        (fun _ => 0) prog.length with
    | some (.ret value) => value.toNat
    | _ => 0
  else 0

theorem whole_input (a : Arrival) :
    a.whole.input = ⟨a.packet, UInt32.ofNat a.packet.length, a.length_lt⟩ := by
  simp [RingFrame.input, RingFrame.bytes, Arrival.whole]

theorem kernelFilter_agrees
    {sock : Socket} (hrun : sock.runFilter = kernelFilter) : sock.KernelAgrees := by
  intro prog a value hvalue
  have hzero := hvalue fun _ => 0
  rw [whole_input] at hzero
  rw [hrun, kernelFilter, dif_pos a.length_lt, hzero]

/-- A socket with a filter which keeps everything. -/
def openSocket : Socket where
  room := 96
  snapshot := 64
  direction := .inout
  lo_ifindex := 1
  filter := [⟨0x06, 0, 0, 64⟩]
  cnt := 2
  runFilter := kernelFilter

theorem openSocket_filtered : openSocket.Filtered fun _ => True where
  installs := by decide
  snapshot_ne_zero := by decide
  selects := fun _ _ _ => rfl
  kernel := kernelFilter_agrees rfl

def markedArrival (mark : UInt8) : Arrival where
  packet := List.replicate 80 mark
  ts := ⟨0, 0⟩
  outgoing := false
  ifindex := 1
  vlan_tci := none
  length_lt := by simp

/-- The first packet comes before the filter, the second while everything is
rejected, the third during the walk. -/
def openRun : List Action :=
  let proceed : Action := .thread true fun _ => 0
  [.arrive (markedArrival 1), proceed, proceed, .arrive (markedArrival 2),
    proceed, proceed, .arrive (markedArrival 3), proceed, proceed, proceed,
    proceed, proceed, proceed, proceed]

end Mmap
end StockFeed
