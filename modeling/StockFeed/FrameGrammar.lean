import StockFeed.CaptureBounds

/-!
# Accepted frames and the frame grammar

The callback looks at three header fields: the header length nibble, the
protocol byte and the captured length.  It never looks at the EtherType, the IP
version or the lengths inside the headers.  So it also accepts frames which are
not IPv4, at offsets which are not theirs, and it logs what follows the
datagram in a frame together with the datagram.

Both differences are made exact here: which frames are treated as the grammar
of Ethernet, IPv4 and UDP asks for, and for which of them the log receives the
payload and nothing else.
-/

namespace StockFeed

open StateAction

/-! ## The grammar -/

namespace Frame

/-- Two bytes in network order. -/
def field16 (frame : Frame) (offset : ℕ) : ℕ :=
  (frame.packet[offset]?.getD 0).toNat * 256 +
    (frame.packet[offset + 1]?.getD 0).toNat

def etherType (frame : Frame) : ℕ :=
  frame.field16 12

def ipVersion (frame : Frame) : ℕ :=
  (frame.packet[14]?.getD 0).toNat / 16

def ip_hl (frame : Frame) : ℕ :=
  (frame.packet[14]?.getD 0).toNat % 16

def ip_len (frame : Frame) : ℕ :=
  frame.field16 16

def uh_ulen (frame : Frame) : ℕ :=
  frame.field16 (14 + 4 * frame.ip_hl + 4)

/-- Ethernet, IPv4 and UDP, with all headers captured. -/
structure WellFormed (frame : Frame) : Prop where
  etherType : frame.etherType = 0x0800
  ipVersion : frame.ipVersion = 4
  ip_hl : 5 ≤ frame.ip_hl
  ip_p : frame.packet[23]? = some 17
  captured : 14 + 4 * frame.ip_hl + 8 ≤ frame.packet.length

theorem payloadOffset_eq (frame : Frame) :
    frame.payloadOffset = 14 + 4 * frame.ip_hl + 8 := by
  rw [payloadOffset, ipLength, ip_hl, Nat.mul_comm]

theorem WellFormed.accepted
    {frame : Frame} (hformed : frame.WellFormed) : frame.Accepted := by
  have hhl := hformed.ip_hl
  have hcaptured := hformed.captured
  refine ⟨by omega, ?_, hformed.ip_p⟩
  rw [payloadOffset_eq]
  exact hcaptured

end Frame

/-! ## What an accepted frame changes -/

section Logged

theorem processRecord_keeps_log
    (cfg : Config) (loop_id : Int32) (st : Stock) :
    Keeps Server.g_pFile (processRecord cfg loop_id st) := by
  have hquery : Keeps Server.g_pFile (allPriceOK cfg) := by
    intro s
    obtain ⟨ok, s₁, hquery⟩ := exists_query cfg s
    rw [hquery.run, finalState_ok, hquery.frame]
  have hpop : Keeps Server.g_pFile (popFrontAt st.id_) := by
    intro s
    rw [popFrontAt, bind_apply_of_ok (get_apply s)]
    cases popFront (s.deque st.id_) with
    | none => rfl
    | some rest => rfl
  have hpush : Keeps Server.g_pFile (pushBack loop_id st) :=
    keeps_modify fun _ => rfl
  have hstore : Keeps Server.g_pFile (storeRecord cfg loop_id st) :=
    hquery.bind fun _ => (hpop.bind fun _ => hpush).ite hpush
  have hgetAll : Keeps Server.g_pFile (getAll cfg loop_id) := by
    refine Keeps.bind (keeps_modify ?_) fun _ => hquery.bind fun _ =>
      Keeps.ite (Keeps.bind (keeps_modify ?_) fun _ => keeps_modify ?_)
        (keeps_modify ?_)
    all_goals exact fun _ => rfl
  apply (keeps_get _).bind
  intro s
  apply Keeps.ite _ (keeps_pure _ _)
  apply hstore.bind
  intro _
  apply (keeps_get _).bind
  intro s'
  exact hgetAll.ite (keeps_pure _ _)

theorem decodeLoop_keeps_log
    (cfg : Config) (loop_id : Int32) (n : ℕ) (packet : Packet) :
    Keeps Server.g_pFile (decodeLoop cfg loop_id n packet) := by
  induction n generalizing packet with
  | zero => exact keeps_pure _ _
  | succ n ih =>
      rw [decodeLoop]
      apply Keeps.bind
      · cases Stock.decode packet with
        | none => exact keeps_throw _ _
        | some st => exact keeps_pure _ _
      · intro st
        exact (processRecord_keeps_log cfg loop_id st).bind fun _ => ih _

theorem unlessDone_keeps_log
    {body : ServerM Unit} (hbody : Keeps Server.g_pFile body)
    (loop_id : Int32) : Keeps Server.g_pFile (unlessDone loop_id body) := by
  intro s
  rw [unlessDone_apply]
  split_ifs
  · rfl
  · exact hbody _

/-- From any state, an accepted frame whose loop id was captured is logged. -/
theorem log_myCallback
    {frame : CapturedFrame} (haccepted : frame.Accepted)
    (hloopThere : 4 ≤ frame.payload.length)
    (hint : frame.payload.length < 2 ^ 31) (cfg : Config) (s : Server) :
    (finalState (myCallback cfg frame.toFrame s)).g_pFile =
      s.g_pFile ++ frame.payload := by
  obtain ⟨loop_id, hloop, _⟩ := readLoopId_of_length hloopThere
  rw [myCallback_of_accepted haccepted, finalState_bind_pure,
    handlePayload_apply hloop (Frame.length_payload_lt frame), if_pos hint]
  exact unlessDone_keeps_log
    (decodeLoop_keeps_log cfg loop_id cfg.groupStock _) loop_id _

end Logged

/-! ## Frames treated as the grammar asks -/

/-- A well-formed frame changes the state, with its payload behind the UDP
header; after any other one the callback returns with the state it had. -/
def FollowsGrammar (cfg : Config) (frame : CapturedFrame) (s : Server) : Prop :=
  (frame.WellFormed →
      finalState (myCallback cfg frame.toFrame s) ≠ s ∧
        ∃ length, skipHeaders frame.toFrame = some (.ok
          (frame.packet.drop (14 + 4 * frame.ip_hl + 8), length))) ∧
    (¬ frame.WellFormed →
      ∃ line, myCallback cfg frame.toFrame s = .ok line s)

theorem myCallback_changes
    {frame : CapturedFrame} (haccepted : frame.Accepted)
    (hloopThere : 4 ≤ frame.payload.length)
    (hint : frame.payload.length < 2 ^ 31) (cfg : Config) (s : Server) :
    finalState (myCallback cfg frame.toFrame s) ≠ s := by
  intro hsame
  have hlog := log_myCallback haccepted hloopThere hint cfg s
  rw [hsame] at hlog
  have hlength := congrArg List.length hlog
  rw [List.length_append] at hlength
  omega

/-- An accepted payload which is too short or too long ends the callback before
anything has changed. -/
theorem myCallback_faults
    {frame : CapturedFrame} (haccepted : frame.Accepted)
    (hunfit : ¬ (4 ≤ frame.payload.length ∧ frame.payload.length < 2 ^ 31))
    (cfg : Config) (s : Server) :
    myCallback cfg frame.toFrame s = .error .outOfRange s := by
  rw [myCallback_of_accepted haccepted]
  apply bind_apply_of_error
  rcases lt_or_ge frame.payload.length 4 with hshort | hloopThere
  · exact handlePayload_of_length_lt hshort _ s
  · obtain ⟨loop_id, hloop, _⟩ := readLoopId_of_length hloopThere
    rw [handlePayload_apply hloop (Frame.length_payload_lt frame),
      if_neg fun hint => hunfit ⟨hloopThere, hint⟩]

/-- In every state, the callback follows the grammar exactly on the frames its
own checks reject and on the well-formed ones with a payload which holds a loop
id and whose length is an `int`. -/
theorem myCallback_followsGrammar_iff
    (cfg : Config) (frame : CapturedFrame) (s : Server) :
    FollowsGrammar cfg frame s ↔
      ¬ frame.Accepted ∨ frame.WellFormed ∧
        4 ≤ frame.payload.length ∧ frame.payload.length < 2 ^ 31 := by
  by_cases haccepted : frame.Accepted
  · by_cases hfits : 4 ≤ frame.payload.length ∧ frame.payload.length < 2 ^ 31
    · have hchanges := myCallback_changes haccepted hfits.1 hfits.2 cfg s
      constructor
      · intro hfollows
        by_contra hnot
        have hformed : ¬ frame.WellFormed := fun hformed =>
          hnot (Or.inr ⟨hformed, hfits⟩)
        obtain ⟨line, hsame⟩ := hfollows.2 hformed
        rw [hsame] at hchanges
        exact hchanges rfl
      · rintro (hrejected | ⟨hformed, _⟩)
        · exact absurd haccepted hrejected
        · refine ⟨fun _ => ⟨hchanges, ?_⟩, fun hnot => absurd hformed hnot⟩
          have hskip := skipHeaders_of_accepted haccepted
          rw [Frame.payload, Frame.payloadOffset_eq] at hskip
          exact ⟨_, hskip⟩
    · have hfault := myCallback_faults haccepted hfits cfg s
      constructor
      · intro hfollows
        by_cases hformed : frame.WellFormed
        · have hchanges := (hfollows.1 hformed).1
          rw [hfault] at hchanges
          exact absurd rfl hchanges
        · obtain ⟨line, hreturns⟩ := hfollows.2 hformed
          rw [hfault] at hreturns
          cases hreturns
      · rintro (hrejected | ⟨_, hfits'⟩)
        · exact absurd haccepted hrejected
        · exact absurd hfits' hfits
  · have hformed : ¬ frame.WellFormed := fun hformed =>
      haccepted hformed.accepted
    obtain ⟨line, hreturns⟩ := myCallback_of_rejected haccepted s
    exact ⟨fun _ => Or.inl haccepted, fun _ =>
      ⟨fun hnot => absurd hnot hformed, fun _ => ⟨_, hreturns⟩⟩⟩

/-- What the filter `port 4567 and udp` lets through on Ethernet: IPv6 with
next header 17, or the first fragment of IPv4 with protocol 17, to or from the
port. -/
def Frame.passesFilter (frame : Frame) : Bool :=
  if frame.etherType = 0x86dd then
    frame.packet[20]? = some 17 ∧
      (frame.field16 54 = 4567 ∨ frame.field16 56 = 4567)
  else
    frame.etherType = 0x0800 ∧ frame.packet[23]? = some 17 ∧
      frame.field16 20 % 2 ^ 13 = 0 ∧
      (frame.field16 (14 + 4 * frame.ip_hl) = 4567 ∨
        frame.field16 (14 + 4 * frame.ip_hl + 2) = 4567)

/-- An IPv6 datagram of one group to port 4567, with the source address
2011::1. -/
def ipv6Frame : CapturedFrame where
  ts := ⟨0, 0⟩
  caplen := 466
  packet := List.replicate 12 0 ++ [0x86, 0xdd] ++
    [0x60, 0, 0, 0, 1, 156, 17, 64] ++
    [0x20, 0x11] ++ List.replicate 13 0 ++ [1] ++ List.replicate 15 0 ++ [1] ++
    [195, 80, 17, 215, 1, 156, 0, 0] ++ List.replicate 404 0
  available := by
    rw [List.length_append, List.length_replicate]
    rfl

theorem length_ipv6Frame : ipv6Frame.packet.length = 466 :=
  ipv6Frame.available

theorem ipv6Frame_payload : ipv6Frame.payload = ipv6Frame.packet.drop 22 := rfl

theorem length_ipv6Frame_payload : ipv6Frame.payload.length = 444 := by
  rw [ipv6Frame_payload, List.length_drop, length_ipv6Frame]

theorem ipv6Frame_accepted : ipv6Frame.Accepted := by
  have hlength := length_ipv6Frame
  have hoffset : ipv6Frame.payloadOffset = 22 := rfl
  exact ⟨by omega, by omega, rfl⟩

/-- The frame is not IPv4.  Its header length nibble is zero, the protocol byte
is taken from its source address, and everything from that address on is
logged. -/
theorem myCallback_logs_ipv6Frame :
    let s := Server.initial Config.shipped
    ipv6Frame.passesFilter ∧ ¬ ipv6Frame.WellFormed ∧
      (finalState (myCallback Config.shipped ipv6Frame.toFrame s)).g_pFile =
        ipv6Frame.packet.drop 22 ∧
      ¬ FollowsGrammar Config.shipped ipv6Frame s := by
  intro s
  have hformed : ¬ ipv6Frame.WellFormed := fun hformed =>
    absurd hformed.etherType (by decide)
  have hlength := length_ipv6Frame_payload
  refine ⟨by decide, hformed, ?_, ?_⟩
  · rw [log_myCallback ipv6Frame_accepted (by omega) (by omega),
      ipv6Frame_payload]
    rfl
  · intro hfollows
    obtain ⟨line, hsame⟩ := hfollows.2 hformed
    have hchanges := myCallback_changes ipv6Frame_accepted (by omega)
      (by omega) Config.shipped s
    rw [hsame] at hchanges
    exact hchanges rfl

/-! ## What the log receives -/

namespace Frame

/-- The length fields describe one datagram, which was captured. -/
structure Consistent (frame : Frame) : Prop where
  ip_len : frame.ip_len = 4 * frame.ip_hl + frame.uh_ulen
  uh_ulen : 8 ≤ frame.uh_ulen
  captured : 14 + frame.ip_len ≤ frame.packet.length

/-- What follows the UDP header and belongs to the datagram. -/
def udpPayload (frame : Frame) : List UInt8 :=
  frame.payload.take (frame.uh_ulen - 8)

theorem field16_lt (frame : Frame) (offset : ℕ) :
    frame.field16 offset < 2 ^ 16 := by
  have hhigh := (frame.packet[offset]?.getD 0).toNat_lt
  have hlow := (frame.packet[offset + 1]?.getD 0).toNat_lt
  rw [field16]
  omega

theorem Consistent.length_payload
    {frame : Frame} (hconsistent : frame.Consistent) :
    frame.payload.length =
      frame.uh_ulen - 8 + (frame.packet.length - (14 + frame.ip_len)) := by
  have hip := hconsistent.ip_len
  have hudp := hconsistent.uh_ulen
  have hcaptured := hconsistent.captured
  rw [payload, List.length_drop, payloadOffset_eq]
  omega

theorem Consistent.udpPayload_eq_iff
    {frame : Frame} (hconsistent : frame.Consistent) :
    frame.udpPayload = frame.payload ↔
      frame.packet.length = 14 + frame.ip_len := by
  have hlength := hconsistent.length_payload
  have hcaptured := hconsistent.captured
  rw [udpPayload, List.take_eq_self_iff]
  omega

end Frame

/-- The loop id is read before anything is written. -/
theorem log_grows_by_payload_iff
    {frame : CapturedFrame} (haccepted : frame.Accepted)
    (hint : frame.payload.length < 2 ^ 31) {cfg : Config} {s : Server} :
    (finalState (myCallback cfg frame.toFrame s)).g_pFile =
        s.g_pFile ++ frame.payload ↔
      frame.payload.length = 0 ∨ 4 ≤ frame.payload.length := by
  by_cases hloopThere : 4 ≤ frame.payload.length
  · have hlog := log_myCallback haccepted hloopThere hint cfg s
    exact ⟨fun _ => Or.inr hloopThere, fun _ => hlog⟩
  · rw [myCallback_faults haccepted (fun hfits => hloopThere hfits.1),
      finalState_error, List.self_eq_append_right, List.length_eq_zero_iff]
    exact ⟨Or.inl, fun h => h.resolve_right hloopThere⟩

/-- `fwrite` gets the payload with a length which is not negative, and when the
callback ends, the payload is what has been appended. -/
def LogsPayload (cfg : Config) (frame : CapturedFrame) (s : Server) : Prop :=
  (∃ packet length, skipHeaders frame.toFrame = some (.ok (packet, length)) ∧
      0 ≤ length.toInt ∧
      fwrite packet (sizeT length) s =
        .ok () { s with g_pFile := s.g_pFile ++ frame.udpPayload }) ∧
    (finalState (myCallback cfg frame.toFrame s)).g_pFile =
      s.g_pFile ++ frame.udpPayload

/-- For an accepted frame with consistent lengths, the log receives exactly the
UDP payload if and only if nothing follows the datagram in the frame and a
payload which is not empty holds a loop id. -/
theorem log_receives_udpPayload_iff
    (cfg : Config) {frame : CapturedFrame} (haccepted : frame.Accepted)
    (hconsistent : frame.Consistent) (s : Server) :
    LogsPayload cfg frame s ↔
      frame.packet.length = 14 + frame.ip_len ∧
        (frame.uh_ulen = 8 ∨ 12 ≤ frame.uh_ulen) := by
  have hlength := hconsistent.length_payload
  have hulen := frame.field16_lt (14 + 4 * frame.ip_hl + 4)
  change frame.uh_ulen < 2 ^ 16 at hulen
  have hudp := hconsistent.uh_ulen
  have hfwrite := fwrite_apply (Frame.length_payload_lt frame) s
  have hskip := skipHeaders_of_accepted haccepted
  constructor
  · rintro ⟨⟨packet, length, hheaders, _, hwritten⟩, hlogged⟩
    rw [hskip] at hheaders
    simp only [Option.some.injEq, Except.ok.injEq, Prod.mk.injEq] at hheaders
    rw [← hheaders.1, ← hheaders.2, hfwrite] at hwritten
    split_ifs at hwritten
    rw [EStateM.Result.ok.injEq] at hwritten
    have hlog := congrArg Server.g_pFile hwritten.2
    have hwhole := (List.append_cancel_left hlog).symm
    have hend := hconsistent.udpPayload_eq_iff.mp hwhole
    have hshort : frame.payload.length < 2 ^ 31 := by omega
    rw [hwhole, log_grows_by_payload_iff haccepted hshort] at hlogged
    exact ⟨hend, by omega⟩
  · rintro ⟨hend, hloop⟩
    have hwhole := hconsistent.udpPayload_eq_iff.mpr hend
    have hshort : frame.payload.length < 2 ^ 31 := by omega
    rw [LogsPayload, hwhole]
    refine ⟨⟨_, _, hskip, ?_, ?_⟩, ?_⟩
    · rw [Int32.toInt_ofNat_of_lt hshort]
      exact Int.natCast_nonneg _
    · rw [hfwrite, if_pos hshort]
    · rw [log_grows_by_payload_iff haccepted hshort]
      omega

section Trailer

variable {frame : CapturedFrame} {payload trailer : List UInt8}

theorem ip_hl_of_packet (hpacket : frame.packet = udpFrame payload ++ trailer) :
    frame.ip_hl = 5 := by
  have hfirst : (udpFrame payload ++ trailer)[14]? = some 69 := rfl
  rw [Frame.ip_hl, hpacket, hfirst]
  rfl

theorem toNat_ofNat_two_bytes {n : ℕ} (hn : n < 2 ^ 16) :
    (UInt8.ofNat (n / 256)).toNat * 256 + (UInt8.ofNat n).toNat = n := by
  rw [UInt8.toNat_ofNat', UInt8.toNat_ofNat']
  omega

theorem ip_len_of_packet
    (hpacket : frame.packet = udpFrame payload ++ trailer)
    (hfits : payload.length < 2 ^ 15) :
    frame.ip_len = 28 + payload.length := by
  have hhigh : (udpFrame payload ++ trailer)[16]? =
      some (UInt8.ofNat ((28 + payload.length) / 256)) := rfl
  have hlow : (udpFrame payload ++ trailer)[16 + 1]? =
      some (UInt8.ofNat (28 + payload.length)) := rfl
  rw [Frame.ip_len, Frame.field16, hpacket, hhigh, hlow, Option.getD_some,
    Option.getD_some, toNat_ofNat_two_bytes (by omega)]

theorem uh_ulen_of_packet
    (hpacket : frame.packet = udpFrame payload ++ trailer)
    (hfits : payload.length < 2 ^ 15) :
    frame.uh_ulen = 8 + payload.length := by
  have hhigh : (udpFrame payload ++ trailer)[38]? =
      some (UInt8.ofNat ((8 + payload.length) / 256)) := rfl
  have hlow : (udpFrame payload ++ trailer)[38 + 1]? =
      some (UInt8.ofNat (8 + payload.length)) := rfl
  rw [Frame.uh_ulen, ip_hl_of_packet hpacket, Frame.field16, hpacket, hhigh,
    hlow, Option.getD_some, Option.getD_some, toNat_ofNat_two_bytes (by omega)]

theorem consistent_of_packet
    (hpacket : frame.packet = udpFrame payload ++ trailer)
    (hfits : payload.length < 2 ^ 15) : frame.Consistent := by
  have hhl := ip_hl_of_packet hpacket
  have hip := ip_len_of_packet hpacket hfits
  have hudp := uh_ulen_of_packet hpacket hfits
  refine ⟨by omega, by omega, ?_⟩
  rw [hip, hpacket, List.length_append, length_udpFrame]
  omega

theorem accepted_of_packet
    (hpacket : frame.packet = udpFrame payload ++ trailer) :
    frame.Accepted := by
  have hlength : frame.packet.length =
      payload.length + 42 + trailer.length := by
    rw [hpacket, List.length_append, length_udpFrame]
  have hproto : (udpFrame payload ++ trailer)[23]? = some 17 := rfl
  refine ⟨by omega, ?_, hpacket ▸ hproto⟩
  rw [Frame.payloadOffset_eq, ip_hl_of_packet hpacket]
  omega

end Trailer

theorem log_receives_zeroGroup :
    let frame := loopbackFrame (List.replicate 404 0) length_zeroGroup_lt
    frame.Accepted ∧ frame.Consistent ∧
      frame.packet.length = 14 + frame.ip_len ∧ 12 ≤ frame.uh_ulen ∧
      LogsPayload Config.shipped frame (Server.initial Config.shipped) := by
  intro frame
  have hpacket : frame.packet = udpFrame (List.replicate 404 0) ++ [] :=
    (List.append_nil _).symm
  have hfits : (List.replicate 404 (0 : UInt8)).length < 2 ^ 15 := by
    rw [List.length_replicate]
    norm_num
  have haccepted : frame.Accepted := accepted_of_packet hpacket
  have hconsistent : frame.Consistent := consistent_of_packet hpacket hfits
  have hend : frame.packet.length = 14 + frame.ip_len := by
    rw [ip_len_of_packet hpacket hfits, hpacket, List.append_nil,
      length_udpFrame]
    omega
  have hulen : 12 ≤ frame.uh_ulen := by
    rw [uh_ulen_of_packet hpacket hfits, List.length_replicate]
    norm_num
  have hlogs := log_receives_udpPayload_iff Config.shipped haccepted hconsistent
    (Server.initial Config.shipped)
  exact ⟨haccepted, hconsistent, hend, hulen,
    hlogs.mpr ⟨hend, Or.inr hulen⟩⟩

/-- A group of zeros with four bytes behind the datagram. -/
def trailedFrame : CapturedFrame where
  ts := ⟨0, 0⟩
  caplen := 450
  packet := udpFrame (List.replicate 404 0) ++ [1, 2, 3, 4]
  available := by
    rw [List.length_append, length_udpFrame, List.length_replicate]
    rfl

theorem trailedFrame_payload :
    trailedFrame.payload = List.replicate 404 0 ++ [1, 2, 3, 4] := rfl

/-- The four bytes behind the datagram are logged with it. -/
theorem log_receives_trailer :
    let s := Server.initial Config.shipped
    trailedFrame.Accepted ∧ trailedFrame.Consistent ∧
      trailedFrame.udpPayload = List.replicate 404 0 ∧
      (finalState (myCallback Config.shipped trailedFrame.toFrame s)).g_pFile =
        List.replicate 404 0 ++ [1, 2, 3, 4] ∧
      ¬ LogsPayload Config.shipped trailedFrame s := by
  intro s
  have hpacket : trailedFrame.packet =
      udpFrame (List.replicate 404 0) ++ [1, 2, 3, 4] := rfl
  have hzeros : (List.replicate 404 (0 : UInt8)).length = 404 :=
    List.length_replicate
  have hfits : (List.replicate 404 (0 : UInt8)).length < 2 ^ 15 := by
    rw [hzeros]
    norm_num
  have haccepted : trailedFrame.Accepted := accepted_of_packet hpacket
  have hlength : trailedFrame.payload.length = 408 := by
    rw [trailedFrame_payload, List.length_append, hzeros]
    rfl
  have hudp : trailedFrame.udpPayload = List.replicate 404 0 := by
    rw [Frame.udpPayload, uh_ulen_of_packet hpacket hfits, trailedFrame_payload,
      hzeros]
    exact List.take_left' hzeros
  have hlog := log_myCallback haccepted (by omega) (by omega) Config.shipped s
  rw [trailedFrame_payload] at hlog
  refine ⟨haccepted, consistent_of_packet hpacket hfits, hudp, hlog, ?_⟩
  intro hlogs
  have hpayload := hlogs.2
  rw [hlog, hudp, List.append_cancel_left_eq] at hpayload
  have hmore := congrArg List.length hpayload
  rw [List.length_append, hzeros] at hmore
  exact absurd hmore (by decide)

end StockFeed
