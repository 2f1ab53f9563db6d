import StockFeed.Callback
import StockFeed.CodeLayout
import StockFeed.RingQueue

/-!
# Capturing from a memory-mapped ring

On Linux the capture library shares a ring of packet slots with the kernel.
The kernel fills free slots whenever a packet arrives; `pcap_loop` empties
them and hands the packets to the callback.  The ring is in use before
`pcap_setfilter` is called, so packets which no filter has seen may be in it
when the kernel gets the filter.  `pcap_setfilter_linux_mmap` bounds their
number by walking the ring backwards, and as many packets are filtered again by
`pcap_read_linux_mmap`.

The thread and the kernel take turns in any order.  The kernel is not part of
the library: what its filter answers is a parameter, and so is the outcome of
each system call.
-/

namespace StockFeed
namespace Mmap

open Bpf RingQueue

/-! ## Packets in the ring -/

/-- A packet at the interface.  `vlan_tci` is the tag which the device has
taken out of it. -/
structure Arrival where
  packet : Packet
  ts : Timeval
  outgoing : Bool
  ifindex : Int32
  vlan_tci : Option UInt16
  length_lt : packet.length < 2 ^ 31

/-- A used slot: the first `tp_snaplen` bytes of a packet. -/
structure RingFrame where
  arrival : Arrival
  tp_snaplen : ℕ
  tp_snaplen_le : tp_snaplen ≤ arrival.packet.length

def RingFrame.bytes (frame : RingFrame) : Packet :=
  frame.arrival.packet.take frame.tp_snaplen

/-- The arguments of `bpf_filter` for a slot. -/
def RingFrame.input (frame : RingFrame) : Input where
  p := frame.bytes
  wirelen := UInt32.ofNat frame.arrival.packet.length
  length_lt := by
    have hlength := frame.arrival.length_lt
    rw [RingFrame.bytes, List.length_take]
    omega

inductive Direction
  | inout | incoming | outgoing
  deriving DecidableEq, Repr

/-- What does not change during a capture.  `room` is what a slot has for the
bytes of a packet, `cnt` the argument of `pcap_loop`, and `runFilter` what the
kernel keeps of a packet when a program is attached to the socket. -/
structure Socket where
  room : ℕ
  snapshot : UInt32
  direction : Direction
  lo_ifindex : Int32
  filter : List Insn
  cnt : ℤ
  runFilter : List Insn → Packet → ℕ

/-! ## The handle -/

/-- Where the thread is, between `pcap_setfilter` and the end of `pcap_loop`. -/
inductive Phase (cc : ℕ)
  | install
  | attachTotal
  | drain
  | attach
  | reset (fatal : Bool)
  | count (n : ℕ) (position : Fin cc)
  | poll (cnt : ℤ)
  | read (cnt : ℤ) (pkts : ℕ)
  | release (cnt : ℤ) (pkts : ℕ)
  | finished (result : ℤ)

/-- The ring, the socket and the handle.  `queued` remembers the packets the
kernel has put into the ring, `delivered` what the callback was given. -/
structure World (cc : ℕ) where
  slots : Fin cc → Option RingFrame
  head : Fin cc
  attached : Option (List Insn)
  offset : Fin cc
  use_bpf : ℕ
  fcode : Option (List Insn)
  phase : Phase cc
  queued : List Arrival
  delivered : List Frame

/-- After `pcap_open_live`, with `cc` slots. -/
def World.initial {cc : ℕ} (hcc : 0 < cc) : World cc where
  slots := fun _ => none
  head := ⟨0, hcc⟩
  attached := none
  offset := ⟨0, hcc⟩
  use_bpf := 0
  fcode := none
  phase := .install
  queued := []
  delivered := []

/-! ## The kernel -/

/-- `total_insn`: the filter which rejects everything. -/
def totalFcode : List Insn := [⟨0x06, 0, 0, 0⟩]

/-- How much of a packet the kernel keeps; nothing if the filter rejects it. -/
def kernelKeeps (sock : Socket) (attached : Option (List Insn))
    (a : Arrival) : Option ℕ :=
  match attached with
  | none => some a.packet.length
  | some prog =>
      if sock.runFilter prog a.packet = 0 then none
      else some (sock.runFilter prog a.packet)

def capture (room keep : ℕ) (a : Arrival) : RingFrame where
  arrival := a
  tp_snaplen := min (min a.packet.length keep) room
  tp_snaplen_le := (min_le_left _ _).trans (min_le_left _ _)

variable {cc : ℕ}

/-- A packet which does not find a free slot is dropped. -/
def arrive (sock : Socket) (w : World cc) (a : Arrival) : World cc :=
  match kernelKeeps sock w.attached a, w.slots w.head with
  | some keep, none =>
      { w with
        slots := Function.update w.slots w.head (some (capture sock.room keep a))
        head := next w.head
        queued := w.queued ++ [a] }
  | _, _ => w

/-! ## Reading the ring -/

/-- `struct vlan_tag`, in network byte order. -/
def vlanTag (tci : UInt16) : Packet :=
  [0x81, 0x00, (tci >>> 8).toUInt8, tci.toUInt8]

/-- The bytes with a tag put back behind the Ethernet addresses. -/
def insertVlan (vlan_tci : Option UInt16) (bytes : Packet) : Packet :=
  match vlan_tci with
  | some tci =>
      if 12 ≤ bytes.length then bytes.take 12 ++ vlanTag tci ++ bytes.drop 12
      else bytes
  | none => bytes

/-- The bytes cut at the snapshot length, with their header. -/
def presentBytes (snapshot : UInt32) (ts : Timeval) (bytes : Packet) : Frame where
  ts := ts
  caplen := UInt32.ofNat (min bytes.length snapshot.toNat)
  packet := bytes.take snapshot.toNat

/-- What the callback is given for a slot. -/
def present (snapshot : UInt32) (frame : RingFrame) : Frame :=
  presentBytes snapshot frame.arrival.ts
    (insertVlan frame.arrival.vlan_tci frame.bytes)

/-- The checks based on packet direction. -/
def directionWanted (sock : Socket) (a : Arrival) : Bool :=
  if a.outgoing then
    !(a.ifindex == sock.lo_ifindex || sock.direction == .incoming)
  else sock.direction != .outgoing

/-- `run_bpf`, and what it leaves in `use_bpf`. -/
def runBpf (use_bpf : ℕ) : Bool × ℕ :=
  if use_bpf = 0 then (true, 0)
  else if 1 < use_bpf then (true, use_bpf - 1)
  else (false, use_bpf)

/-- Whether the filter of the handle lets a slot through.  `none` is a run of
the filter which does not return a value. -/
def userPasses (fcode : Option (List Insn)) (frame : RingFrame)
    (mem : Fin memWords → UInt32) : Option Bool :=
  match fcode with
  | none => some true
  | some prog =>
      match bpfFilter (some prog) frame.input mem prog.length with
      | some (.ret value) => some (value != 0)
      | _ => none

/-- `pcap_read_linux_mmap` returns `pkts` to `pcap_loop`. -/
def returnRead (cnt : ℤ) (pkts : ℕ) : Phase cc :=
  if pkts = 0 then .poll cnt
  else if 0 < cnt then
    if cnt - pkts ≤ 0 then .finished 0 else .poll (cnt - pkts)
  else .poll cnt

/-- The condition of `goto skip` behind the filter, negated. -/
def filterPasses (w : World cc) (frame : RingFrame)
    (mem : Fin memWords → UInt32) : Option Bool :=
  if (runBpf w.use_bpf).1 then userPasses w.fcode frame mem else some true

/-- One turn of the loop of `pcap_read_linux_mmap`, up to `skip`. -/
def readFrame (sock : Socket) (w : World cc) (cnt : ℤ) (pkts : ℕ)
    (frame : RingFrame) (mem : Fin memWords → UInt32) : Option (World cc) :=
  -- the sanity check on the internal offset
  if sock.room < frame.tp_snaplen then
    some { w with phase := .finished (-1) }
  else
    (filterPasses w frame mem).map fun passes =>
      if passes && directionWanted sock frame.arrival then
        { w with
          use_bpf := (runBpf w.use_bpf).2
          phase := .release cnt (pkts + 1)
          delivered := w.delivered ++ [present sock.snapshot frame] }
      else
        { w with
          use_bpf := (runBpf w.use_bpf).2
          phase := .release cnt pkts }

/-! ## The thread -/

def installStep (sock : Socket) (w : World cc) : World cc :=
  match installBpfProgram sock.filter with
  | none => { w with phase := .finished (-1) }
  | some fcode =>
      { w with
        fcode := some fcode
        use_bpf := 0
        phase := if 65535 < fcode.length then .reset false else .attachTotal }

/-- One step backwards, while less than `cc` free slots have been counted. -/
def countStep (sock : Socket) (w : World cc) (n : ℕ) (position : Fin cc) :
    World cc :=
  if n < cc ∧ (w.slots (prev position)).isNone then
    { w with phase := .count (n + 1) (prev position) }
  else
    { w with use_bpf := 1 + (cc - n), phase := .poll sock.cnt }

/-- A step of the thread.  `ok` is the outcome of its system call, if it makes
one, and `mem` the scratch memory of the filter. -/
def threadStep (sock : Socket) (w : World cc) (ok : Bool)
    (mem : Fin memWords → UInt32) : Option (World cc) :=
  match w.phase with
  | .install => some (installStep sock w)
  | .attachTotal =>
      some (if ok then { w with attached := some totalFcode, phase := .drain }
        else { w with phase := .attach })
  | .drain => some { w with phase := if ok then .attach else .reset true }
  | .attach =>
      -- `fix_program` changes nothing for a mapped ring on Ethernet
      some (if ok then
          { w with
            attached := w.fcode
            use_bpf := 1
            phase := .count 0 (prev w.offset) }
        else { w with phase := .reset false })
  | .reset fatal =>
      some { w with
        attached := if ok then none else w.attached
        phase := if fatal then .finished (-1) else .poll sock.cnt }
  | .count n position => some (countStep sock w n position)
  | .poll cnt =>
      some { w with
        phase := if (w.slots w.offset).isSome || ok then .read cnt 0
          else .finished (-1) }
  | .read cnt pkts =>
      if (pkts : ℤ) < cnt ∨ cnt ≤ 0 then
        match w.slots w.offset with
        | none => some { w with phase := returnRead cnt pkts }
        | some frame => readFrame sock w cnt pkts frame mem
      else some { w with phase := returnRead cnt pkts }
  | .release cnt pkts =>
      some { w with
        slots := Function.update w.slots w.offset none
        offset := next w.offset
        phase := .read cnt pkts }
  | .finished _ => none

inductive Action
  | arrive (a : Arrival)
  | thread (ok : Bool) (mem : Fin memWords → UInt32)

def step (sock : Socket) (w : World cc) : Action → Option (World cc)
  | .arrive a => some (arrive sock w a)
  | .thread ok mem => threadStep sock w ok mem

def steps (sock : Socket) : World cc → List Action → Option (World cc)
  | w, [] => some w
  | w, action :: rest => do
      let w' ← step sock w action
      steps sock w' rest

end Mmap
end StockFeed
