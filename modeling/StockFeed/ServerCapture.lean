import StockFeed.FrameGrammar
import StockFeed.MmapRun
import StockFeed.PortFilter

/-!
# What the server captures

`pcapServer` compiles `port 4567 and udp`, attaches the program to the ring
and lets `pcap_loop` call `my_callback`.  The program does not look behind the
first 78 bytes of a packet, so it decides alike in the kernel and in
`pcap_read_linux_mmap`.  Whatever the interleaving, the callback therefore
sees the datagrams of the port, as if a list of them had been handed over one
by one.
-/

namespace StockFeed
namespace Mmap

open Bpf RingQueue

/-! ## Reading a cut packet -/

section Cut

variable {p : List UInt8} {n : ℕ}

theorem byteAt_take {i : ℕ} (hi : i < n) : byteAt (p.take n) i = byteAt p i := by
  rw [byteAt, byteAt, List.getElem?_take_of_lt hi]

theorem halfAt_take {i : ℕ} (hi : i + 1 < n) :
    halfAt (p.take n) i = halfAt p i := by
  rw [halfAt, halfAt, List.getElem?_take_of_lt (by omega),
    List.getElem?_take_of_lt hi]

theorem transportHalfAt_take {off : ℕ} (hn : 76 + off ≤ n) :
    transportHalfAt (p.take n) off = transportHalfAt p off := by
  rw [transportHalfAt, transportHalfAt, List.getElem?_take_of_lt (by omega)]
  cases p[14]? with
  | none => rfl
  | some first => exact halfAt_take (by omega)

/-- The filter reads the ports of an IPv4 header of up to 60 bytes. -/
theorem udpPort_take (hn : min p.length 78 ≤ n) (v : UInt32) :
    UdpPort (p.take n) v ↔ UdpPort p v := by
  rcases Nat.le_total p.length n with hall | hcut
  · rw [List.take_of_length_le hall]
  · have hn' : p.length = n ∨ 78 ≤ n := by omega
    rcases hn' with rfl | hn'
    · rw [List.take_of_length_le le_rfl]
    · simp only [UdpPort, halfAt_take (show 12 + 1 < n by omega),
        halfAt_take (show 20 + 1 < n by omega),
        halfAt_take (show 54 + 1 < n by omega),
        halfAt_take (show 56 + 1 < n by omega),
        byteAt_take (show 20 < n by omega), byteAt_take (show 23 < n by omega),
        transportHalfAt_take (show 76 + 0 ≤ n by omega),
        transportHalfAt_take (show 76 + 2 ≤ n by omega)]

end Cut

/-! ## The filter of the frame grammar -/

theorem half_toNat (b0 b1 : UInt8) :
    (b0.toUInt32 <<< 8 ||| b1.toUInt32).toNat = b0.toNat * 256 + b1.toNat := by
  have h0 := b0.toNat_lt
  have h1 := b1.toNat_lt
  have hor : b0.toNat <<< 8 + b1.toNat = b0.toNat <<< 8 ||| b1.toNat :=
    Nat.shiftLeft_add_eq_or_of_lt h1 _
  rw [Nat.shiftLeft_eq] at hor
  have hfits : b0.toNat * 256 % 4294967296 = b0.toNat * 256 := by omega
  simp only [UInt32.toNat_or, UInt32.toNat_shiftLeft, UInt8.toNat_toUInt32]
  simpa [Nat.shiftLeft_eq, hfits] using hor.symm

theorem halfAt_eq_some
    {frame : Frame} {i : ℕ} {v : UInt32} (hi : i + 1 < frame.packet.length) :
    halfAt frame.packet i = some v ↔ frame.field16 i = v.toNat := by
  rw [halfAt, Frame.field16, List.getElem?_eq_getElem (by omega),
    List.getElem?_eq_getElem hi]
  simp only [Option.bind_eq_bind, Option.bind_some, Option.pure_def,
    Option.some.injEq, Option.getD_some, ← half_toNat, UInt32.toNat_inj]

/-- A half word whose low byte is not zero is not read behind the end. -/
theorem halfAt_eq_some_of_low
    {frame : Frame} {i : ℕ} {v : UInt32} (hv : v.toNat % 256 ≠ 0) :
    halfAt frame.packet i = some v ↔ frame.field16 i = v.toNat := by
  rcases Nat.lt_or_ge (i + 1) frame.packet.length with hi | hbehind
  · exact halfAt_eq_some hi
  · have hnone := List.getElem?_eq_none hbehind
    constructor
    · intro hhalf
      have hcut : halfAt frame.packet i = none := by
        rw [halfAt, hnone]
        cases frame.packet[i]? <;> rfl
      rw [hcut] at hhalf
      cases hhalf
    · intro hfield
      rw [Frame.field16, hnone, Option.getD_none] at hfield
      simp only [UInt8.toNat_zero] at hfield
      omega

theorem byteAt_eq_udp {p : List UInt8} {i : ℕ} :
    byteAt p i = some ipprotoUdp ↔ p[i]? = some 17 := by
  have hudp : ipprotoUdp = (17 : UInt8).toUInt32 := rfl
  rw [byteAt, hudp, Option.map_eq_some_iff]
  constructor
  · rintro ⟨byte, hbyte, hsame⟩
    rw [hbyte, UInt8.toUInt32_inj.mp hsame]
  · intro hbyte
    exact ⟨17, hbyte, rfl⟩

theorem fragment_eq_zero
    {frame : Frame} (h20 : 21 < frame.packet.length) :
    (halfAt frame.packet 20).map (· &&& 0x1fff) = some 0 ↔
      frame.field16 20 % 2 ^ 13 = 0 := by
  obtain ⟨value, hvalue⟩ : ∃ value, halfAt frame.packet 20 = some value := by
    rw [halfAt, List.getElem?_eq_getElem (by omega),
      List.getElem?_eq_getElem (by omega)]
    exact ⟨_, rfl⟩
  have hfield := (halfAt_eq_some (by omega)).mp hvalue
  have hmask : value.toNat &&& 8191 = value.toNat % 2 ^ 13 :=
    Nat.and_two_pow_sub_one_eq_mod _ 13
  rw [hvalue, hfield, ← hmask, Option.map_some, Option.some.injEq,
    ← UInt32.toNat_inj]
  rfl

theorem transportHalfAt_port
    {frame : Frame} (h14 : 14 < frame.packet.length) (off : ℕ) :
    transportHalfAt frame.packet off = some 4567 ↔
      frame.field16 (14 + 4 * frame.ip_hl + off) = 4567 := by
  rw [transportHalfAt, Frame.ip_hl, List.getElem?_eq_getElem h14]
  exact halfAt_eq_some_of_low (by decide)

/-- The filter of the frame grammar is the one the program computes. -/
theorem passesFilter_iff (frame : Frame) :
    frame.passesFilter = true ↔ UdpPort frame.packet 4567 := by
  have hv6 : halfAt frame.packet 12 = some ethertypeIpv6 ↔
      frame.etherType = 0x86dd := halfAt_eq_some_of_low (by decide)
  have hport : ∀ i, halfAt frame.packet i = some 4567 ↔
      frame.field16 i = 4567 := fun i => halfAt_eq_some_of_low (by decide)
  unfold Frame.passesFilter UdpPort
  by_cases hether : frame.etherType = 0x86dd
  · have hhalf := hv6.mpr hether
    have hother : some ethertypeIpv6 ≠ some ethertypeIp := by decide
    rw [if_pos hether, decide_eq_true_iff, hport, hport, byteAt_eq_udp]
    simp only [hhalf, hother, true_and, false_and, or_false]
  · rw [if_neg hether, decide_eq_true_iff, hv6, byteAt_eq_udp (i := 23)]
    simp only [hether, false_and, false_or]
    by_cases hproto : frame.packet[23]? = some 17
    · have hlength : 23 < frame.packet.length :=
        (List.getElem?_eq_some_iff.mp hproto).1
      have hip : halfAt frame.packet 12 = some ethertypeIp ↔
          frame.etherType = 0x0800 := halfAt_eq_some (by omega)
      have hsource : transportHalfAt frame.packet 0 = some 4567 ↔
          frame.field16 (14 + 4 * frame.ip_hl) = 4567 :=
        transportHalfAt_port (by omega) 0
      rw [hip, fragment_eq_zero (by omega), hsource,
        transportHalfAt_port (by omega)]
    · simp only [hproto, false_and, and_false]

/-! ## The server's handle -/

/-- The datagrams of the port. -/
def OfPort (packet : Packet) : Prop :=
  UdpPort packet 4567

instance : DecidablePred OfPort := fun packet =>
  inferInstanceAs (Decidable (UdpPort packet 4567))

/-- The capture `pcapServer` starts, with `BUFSIZ` as snapshot length. -/
structure ServerSocket (cfg : Config) (sock : Socket) : Prop where
  snapshot : sock.snapshot = 8192
  filter : pcapCompile (some filterExp) 8192 = some sock.filter
  direction : sock.direction = .inout
  cnt : sock.cnt = cfg.serverStockCount
  kernel : sock.KernelAgrees

section Server

variable {cfg : Config} {sock : Socket}

theorem ServerSocket.filtered (hserver : ServerSocket cfg sock) :
    sock.Filtered OfPort := by
  obtain ⟨prog, hprog, hinstall, hfilter⟩ :=
    @parsePortAndUdp_compiles 4567 8192 (by decide) (by decide)
  obtain rfl : prog = sock.filter :=
    Option.some.inj (hprog.symm.trans hserver.filter)
  refine ⟨hinstall, ?_, fun frame hfull mem => ?_, hserver.kernel⟩
  · rw [hserver.snapshot]
    decide
  · have hbytes : min frame.arrival.packet.length 78 ≤ frame.tp_snaplen := by
      have hread : min frame.arrival.packet.length 8192 ≤ frame.tp_snaplen := by
        rw [RingFrame.Full, hserver.snapshot] at hfull
        exact hfull
      omega
    have hsame : UdpPort frame.input.p 4567 ↔ OfPort frame.arrival.packet :=
      udpPort_take hbytes 4567
    rw [hfilter, portAndUdp_outcome, hserver.snapshot]
    simp only [hsame]

theorem udpPort_length {packet : Packet} (hport : OfPort packet) :
    23 ≤ packet.length := by
  by_contra hshort
  have hnone : ∀ i, 22 ≤ i → packet[i]? = none := fun i hi =>
    List.getElem?_eq_none (by omega)
  rcases hport with ⟨_, _, h54 | h56⟩ | ⟨_, h23, _⟩
  · rw [halfAt, hnone 54 (by omega)] at h54
    cases h54
  · rw [halfAt, hnone 56 (by omega)] at h56
    cases h56
  · rw [byteAt, hnone 23 (by omega)] at h23
    cases h23

theorem length_presented (snapshot : UInt32) (a : Arrival) :
    (presented snapshot a).packet.length =
      (presented snapshot a).caplen.toNat := by
  have hlt := snapshot.toNat_lt
  rw [presented, present, presentBytes, List.length_take,
    UInt32.toNat_ofNat_of_lt' (by simp only [UInt32.size]; omega), min_comm]

/-- A frame which has its tag again is none of those the filter describes. -/
theorem passesFilter_presented
    {a : Arrival} (hport : OfPort a.packet) :
    (presented 8192 a).passesFilter = true ↔ a.vlan_tci = none := by
  have hwhole : a.whole.bytes = a.packet := List.take_of_length_le le_rfl
  have hlength := udpPort_length hport
  have harrival : a.whole.arrival = a := rfl
  cases htag : a.vlan_tci with
  | none =>
      have hpacket : (presented 8192 a).packet = a.packet.take 8192 := by
        rw [presented, present, presentBytes, hwhole, harrival, htag]
        rfl
      rw [passesFilter_iff, hpacket, udpPort_take (by omega)]
      exact iff_of_true hport rfl
  | some tci =>
      have hpacket : (presented 8192 a).packet =
          (a.packet.take 12 ++ vlanTag tci ++ a.packet.drop 12).take 8192 := by
        rw [presented, present, presentBytes, hwhole, harrival, htag]
        simp only [insertVlan, if_pos (show 12 ≤ a.packet.length by omega)]
        rfl
      have hether : (presented 8192 a).etherType = 0x8100 := by
        have h12 : (presented 8192 a).packet[12]? = some 0x81 := by
          rw [hpacket, List.getElem?_take_of_lt (by omega), List.append_assoc,
            List.getElem?_append_right (by rw [List.length_take]; omega),
            List.length_take,
            min_eq_left (by omega)]
          rfl
        have h13 : (presented 8192 a).packet[13]? = some 0 := by
          rw [hpacket, List.getElem?_take_of_lt (by omega), List.append_assoc,
            List.getElem?_append_right (by rw [List.length_take]; omega),
            List.length_take,
            min_eq_left (by omega)]
          rfl
        rw [Frame.etherType, Frame.field16, h12, h13]
        rfl
      rw [Frame.passesFilter, if_neg (by rw [hether]; decide), hether]
      simp

end Server

/-! ## The server's capture -/

def serverSocket (prog : List Insn) : Socket where
  room := 8192
  snapshot := 8192
  direction := .inout
  lo_ifindex := 1
  filter := prog
  cnt := Config.shipped.serverStockCount
  runFilter := kernelFilter

/-- IPv4 and UDP with destination port 4567, on the loopback device. -/
def portArrival (outgoing : Bool) : Arrival where
  packet := List.replicate 12 0 ++ [0x08, 0x00, 0x45] ++ List.replicate 8 0 ++
    [17] ++ List.replicate 12 0 ++ [0x11, 0xd7] ++ List.replicate 404 0
  ts := ⟨0, 0⟩
  outgoing := outgoing
  ifindex := 1
  vlan_tci := none
  length_lt := by
    simp only [List.length_append, List.length_replicate, List.length_cons,
      List.length_nil]
    omega

/-- The loopback device shows the packet twice, before the filter is set. -/
def portRun : List Action :=
  [.arrive (portArrival true), .arrive (portArrival false)] ++
    List.replicate 9 (.thread true fun _ => 0)

end Mmap
end StockFeed
