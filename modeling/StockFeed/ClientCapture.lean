import StockFeed.ReplayLog
import StockFeed.ServerCapture
import StockFeed.UnreportedPair

/-!
# The client's datagrams, from the interface to the report

The pieces together: packets arrive at the interface, among them the datagrams
of the client and anything else which is not for the port.  The kernel and
`pcap_loop` hand some of them to `my_callback`, which logs and decodes them and
calls `coefficient`.  Whatever is lost and however the steps are ordered, the
callback never fails, the log is what it was given, and in exact arithmetic no
pair of stocks is ever assigned.
-/

namespace StockFeed

open StateAction Mmap

/-! ## Servers which have only seen prices of the client -/

/-- The windows and the maps handed to `coefficient` are full and have prices
of the client. -/
structure Server.OfClient (cfg : Config) (s : Server) : Prop where
  prices : s.PricesFrom fun _ price => ClientPrice price
  full : ∀ call ∈ coefficientCalls s.trace, FullMap cfg call.2

section Blocks

variable {cfg : Config}

theorem Server.initial_ofClient : (Server.initial cfg).OfClient cfg := by
  refine ⟨⟨?_, by simp [Server.initial, coefficientCalls]⟩,
    by simp [Server.initial, coefficientCalls]⟩
  intro id price hprice
  rw [deque_initial] at hprice
  exact absurd hprice List.not_mem_nil

theorem recordsState_ofClient
    {loop_id : Int32} {records : List Stock} {s : Server} (hsound : s.Sound cfg)
    (hrecords : ∀ st ∈ records, ClientPrice st.close_price_)
    (hclient : s.OfClient cfg) :
    (recordsState cfg loop_id s records).OfClient cfg := by
  induction records generalizing s with
  | nil => exact hclient
  | cons st rest ih =>
      rw [List.forall_mem_cons] at hrecords
      have hstep := recordStep_recordState hsound loop_id st
      exact ih (hstep.sound hsound) hrecords.2
        ⟨hstep.pricesFrom hrecords.1 hclient.prices,
          hstep.calls_full hsound hclient.full⟩

theorem payloadState_ofClient
    {payload : Payload} {s : Server} (hsound : s.Sound cfg)
    (hpayload : FromClient cfg payload) (hclient : s.OfClient cfg) :
    (payloadState cfg s payload).OfClient cfg := by
  unfold payloadState
  split_ifs
  · exact hclient
  · exact recordsState_ofClient (hsound.withLastLoop payload.loop_id)
      (fun st hst => (hpayload.drawn st hst).close_bounds)
      ⟨⟨hclient.prices.windows, hclient.prices.calls⟩, hclient.full⟩

/-- A datagram of some run of the client. -/
def ClientDatagram (cfg : Config) (datagram : List UInt8) : Prop :=
  ∃ (rand : RandStream) (buffer : List UInt8) (loop_count : ℕ),
    buffer.length = cfg.payloadSize ∧
      datagram ∈ Generator.udpClient cfg rand buffer loop_count

theorem ClientDatagram.length_eq
    {datagram : List UInt8} (hclient : ClientDatagram cfg datagram) :
    datagram.length = cfg.payloadSize := by
  obtain ⟨rand, buffer, loop_count, hbuffer, hsent⟩ := hclient
  rw [Generator.udpClient_eq, udpClient, List.mem_flatMap] at hsent
  obtain ⟨lc, _, hsent⟩ := hsent
  obtain ⟨payload, hpayload, rfl⟩ := List.mem_map.mp hsent
  have hrecords := length_records_of_mem_loopPayloads hpayload
  rw [buildDatagram_eq_bytes payload hbuffer hrecords, Payload.length_bytes,
    hrecords]
  rfl

theorem ClientDatagram.readDatagram
    {datagram : List UInt8} (hclient : ClientDatagram cfg datagram) :
    ∃ payload, readDatagram cfg datagram = some payload ∧
      FromClient cfg payload := by
  obtain ⟨rand, buffer, loop_count, hbuffer, hsent⟩ := hclient
  obtain ⟨_, _, payload, _, hread⟩ := readDatagram_udpClient hbuffer hsent
  exact ⟨payload, hread, rand, buffer, loop_count, hbuffer, datagram, hsent,
    hread⟩

theorem forM_handleBlock_ofClient
    {blocks : List (List UInt8)}
    (hblocks : ∀ block ∈ blocks, ClientDatagram cfg block) {s : Server}
    (hsound : s.Sound cfg) (hclient : s.OfClient cfg) :
    ∃ s', forM blocks (handleBlock cfg) s = .ok () s' ∧
      s'.g_pFile = s.g_pFile ++ blocks.flatten ∧ s'.OfClient cfg := by
  induction blocks generalizing s with
  | nil => exact ⟨s, rfl, by simp, hclient⟩
  | cons block rest ih =>
      rw [List.forall_mem_cons] at hblocks
      obtain ⟨payload, hread, hpayload⟩ := hblocks.1.readDatagram
      have hlogged : ({ s with
          g_pFile := s.g_pFile ++ block } : Server).Sound cfg :=
        ⟨hsound.keys, hsound.full, hsound.counter⟩
      have hclient' : ({ s with
          g_pFile := s.g_pFile ++ block } : Server).OfClient cfg :=
        ⟨⟨hclient.prices.windows, hclient.prices.calls⟩, hclient.full⟩
      have hfile := g_pFile_payloadState hlogged payload
      obtain ⟨s', hrun, hlog, hlast⟩ := ih hblocks.2
        (payloadState_sound hlogged payload)
        (payloadState_ofClient hlogged hpayload hclient')
      refine ⟨s', ?_, ?_, hlast⟩
      · rw [forM_cons_apply,
          handleBlock_ok hsound hblocks.1.length_eq hread]
        exact hrun
      · rw [hlog, hfile, List.append_assoc, List.flatten_cons]

end Blocks

/-! ## Packets with a datagram of the client -/

/-- The packet as a captured frame. -/
def Mmap.Arrival.frame (a : Arrival) : CapturedFrame where
  ts := a.ts
  caplen := UInt32.ofNat a.packet.length
  packet := a.packet
  available := by
    have hlength := a.length_lt
    rw [UInt32.toNat_ofNat_of_lt' (by simp only [UInt32.size]; omega)]

/-- Ethernet, IPv4 and UDP headers with a datagram of the client behind them,
from a device which leaves tags where they are. -/
structure ClientPacket (cfg : Config) (a : Arrival) : Prop where
  untagged : a.vlan_tci = none
  headers : a.frame.WellFormed
  datagram : ClientDatagram cfg a.frame.payload

section Packets

variable {cfg : Config} {a : Arrival}

theorem ClientPacket.length_le
    (hclient : ClientPacket cfg a) (hsmall : cfg.payloadSize + 82 ≤ 8192) :
    a.packet.length ≤ 8192 := by
  have hpayload := hclient.datagram.length_eq
  have hoffset := Frame.payloadOffset_eq a.frame.toFrame
  have hnibble : a.frame.ip_hl < 16 := Nat.mod_lt _ (by norm_num)
  rw [Frame.payload, List.length_drop] at hpayload
  change a.packet.length - _ = _ at hpayload
  omega

theorem ClientPacket.presented_eq
    (hclient : ClientPacket cfg a) (hsmall : cfg.payloadSize + 82 ≤ 8192) :
    presented 8192 a = a.frame.toFrame := by
  have hlength := hclient.length_le hsmall
  have hwhole : a.whole.bytes = a.packet := List.take_of_length_le le_rfl
  have harrival : a.whole.arrival = a := rfl
  have hsnapshot : (8192 : UInt32).toNat = 8192 := rfl
  rw [presented, present, presentBytes, hwhole, harrival, hclient.untagged]
  simp only [insertVlan, hsnapshot, min_eq_left hlength,
    List.take_of_length_le hlength]
  rfl

end Packets

/-! ## From the interface to the report -/

variable {K : Type} [Field K] [LinearOrder K] [IsStrictOrderedRing K]

def clientArrival (datagram : List UInt8) (hfits : datagram.length < 2 ^ 15) :
    Arrival where
  packet := udpFrame datagram
  ts := ⟨0, 0⟩
  outgoing := false
  ifindex := 1
  vlan_tci := none
  length_lt := by
    rw [length_udpFrame]
    omega

theorem clientArrival_clientPacket
    {cfg : Config} {datagram : List UInt8} (hfits : datagram.length < 2 ^ 15)
    (hclient : ClientDatagram cfg datagram) :
    ClientPacket cfg (clientArrival datagram hfits) := by
  have hpacket : (clientArrival datagram hfits).frame.packet =
      udpFrame datagram ++ [] := (List.append_nil _).symm
  have hhl := ip_hl_of_packet hpacket
  have hlength := length_udpFrame datagram
  have hether : (clientArrival datagram hfits).frame.etherType = 0x0800 := by
    have hhigh : (udpFrame datagram)[12]? = some 8 := rfl
    have hlow : (udpFrame datagram)[12 + 1]? = some 0 := rfl
    change ((udpFrame datagram)[12]?.getD 0).toNat * 256 +
      ((udpFrame datagram)[12 + 1]?.getD 0).toNat = _
    rw [hhigh, hlow]
    rfl
  have hversion : (clientArrival datagram hfits).frame.ipVersion = 4 := by
    have hfirst : (udpFrame datagram)[14]? = some 69 := rfl
    change ((udpFrame datagram)[14]?.getD 0).toNat / 16 = 4
    rw [hfirst]
    decide
  refine ⟨rfl, ⟨hether, hversion, hhl.ge, rfl, ?_⟩, ?_⟩
  · rw [hhl]
    change _ ≤ (udpFrame datagram).length
    omega
  · rw [Frame.payload, Frame.payloadOffset_eq, hhl]
    exact hclient

/-- A packet which is not for the port, and then the client's, both before the
filter is set. -/
def clientRun (a : Arrival) : List Mmap.Action :=
  [.arrive (markedArrival 1), .arrive a] ++
    List.replicate 9 (.thread true fun _ => 0)

end StockFeed
