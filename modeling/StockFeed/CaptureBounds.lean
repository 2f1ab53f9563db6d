import StockFeed.Callback
import StockFeed.RecordStep

/-!
# Reads of the callback stay within the capture

The header checks of `my_callback` mix `int`, `unsigned int` and `size_t`.
For a captured frame they nevertheless decide what they are meant to decide:
all headers were captured and the protocol is UDP.  What they do not check is
the payload.  The callback then reads a loop id, logs the payload with a length
that went through `int`, and decodes a fixed number of records.

The main result says exactly on which frames and in which states no read
leaves the captured bytes.
-/

namespace StockFeed

open StateAction

/-! ## Conversions on captured lengths -/

theorem toNat_sizeT_ofNat {n : ℕ} (hn : n < 2 ^ 32) :
    (sizeT (Int32.ofNat n)).toNat =
      if n < 2 ^ 31 then n else n + (2 ^ 64 - 2 ^ 32) := by
  have hsize : Int32.size = 2 ^ 32 := rfl
  rw [sizeT, UInt64.ofInt, Int32.toInt_ofNat', hsize, Int.bmod_def,
    UInt64.toNat_ofNat']
  split_ifs <;> omega

theorem sizeT_lt_iff {n k : ℕ} (hn : n < 2 ^ 32) (hk : k < 2 ^ 31) :
    sizeT (Int32.ofNat n) < UInt64.ofNat k ↔ n < k := by
  rw [UInt64.lt_iff_toNat_lt, toNat_sizeT_ofNat hn, UInt64.toNat_ofNat']
  split_ifs <;> omega

theorem toInt32_eq_ofNat (n : UInt32) : n.toInt32 = Int32.ofNat n.toNat := by
  apply Int32.toBitVec_inj.1
  simp

theorem toNat_ipHeaderLength (first : UInt8) :
    (ipHeaderLength first).toNat = first.toNat % 16 * 4 := by
  have hmask : first.toNat &&& 15 = first.toNat % 16 :=
    Nat.and_two_pow_sub_one_eq_mod _ 4
  simp [ipHeaderLength, hmask]
  omega

/-! ## What the header checks decide -/

namespace Frame

def ipLength (frame : Frame) : ℕ :=
  (frame.packet[14]?.getD 0).toNat % 16 * 4

def payloadOffset (frame : Frame) : ℕ :=
  14 + frame.ipLength + 8

def payload (frame : Frame) : Packet :=
  frame.packet.drop frame.payloadOffset

/-- All headers were captured, and the protocol field says UDP. -/
def Accepted (frame : Frame) : Prop :=
  34 ≤ frame.packet.length ∧ frame.payloadOffset ≤ frame.packet.length ∧
    frame.packet[23]? = some 17

instance (frame : Frame) : Decidable frame.Accepted :=
  inferInstanceAs (Decidable (_ ∧ _ ∧ _))

end Frame

theorem skipUdpHeader_ofNat
    {n : ℕ} (hn : n < 2 ^ 32) (ts : Timeval) (packet : Packet) :
    skipUdpHeader ts packet (Int32.ofNat n) =
      if n < 8 then .error (tooShort ts "UDP header")
      else .ok (packet.drop 8, Int32.ofNat (n - 8)) := by
  have hcheck : sizeT (Int32.ofNat n) < 8 ↔ n < 8 :=
    sizeT_lt_iff hn (by norm_num)
  unfold skipUdpHeader
  by_cases hshort : n < 8
  · rw [if_pos (hcheck.mpr hshort), if_pos hshort]
  · rw [if_neg (mt hcheck.mp hshort), if_neg hshort,
      Int32.ofNat_sub n 8 (by omega)]
    rfl

theorem skipIpHeader_ofNat
    {n : ℕ} (hn : n < 2 ^ 32) (ts : Timeval) (packet : Packet)
    {first ip_p : UInt8} (hfirst : 20 ≤ n → packet[0]? = some first)
    (hproto : 20 ≤ n → packet[9]? = some ip_p) :
    skipIpHeader ts packet (Int32.ofNat n) =
      if n < 20 then some (.error (tooShort ts "IP header"))
      else if n < first.toNat % 16 * 4 then
        some (.error (tooShort ts "IP header with options"))
      else if ip_p ≠ 17 then some (.error (problemPkt ts "non-UDP packet"))
      else some (skipUdpHeader ts (packet.drop (first.toNat % 16 * 4))
        (Int32.ofNat (n - first.toNat % 16 * 4))) := by
  have hcheck : sizeT (Int32.ofNat n) < 20 ↔ n < 20 :=
    sizeT_lt_iff hn (by norm_num)
  have hoptions : (Int32.ofNat n).toUInt32 < ipHeaderLength first ↔
      n < first.toNat % 16 * 4 := by
    have hcast : (Int32.ofNat n).toUInt32 = UInt32.ofNat n := rfl
    rw [hcast, UInt32.lt_iff_toNat_lt, toNat_ipHeaderLength,
      UInt32.toNat_ofNat', Nat.mod_eq_of_lt hn]
  unfold skipIpHeader
  by_cases hshort : n < 20
  · rw [if_pos (hcheck.mpr hshort), if_pos hshort]
  · rw [if_neg (mt hcheck.mp hshort), if_neg hshort, hfirst (by omega),
      hproto (by omega)]
    by_cases hopt : n < first.toNat % 16 * 4
    · rw [if_pos hopt]
      exact if_pos (hoptions.mpr hopt)
    · rw [if_neg hopt, Int32.ofNat_sub n _ (by omega),
        ← toNat_ipHeaderLength, ← toInt32_eq_ofNat]
      exact if_neg (mt hoptions.mp hopt)

theorem CapturedFrame.length_lt (frame : CapturedFrame) :
    frame.packet.length < 2 ^ 32 := by
  rw [frame.available]
  exact frame.caplen.toNat_lt

theorem getElem?_drop_headers
    {packet : Packet} {i : ℕ} (hlength : 14 + i < packet.length) :
    (packet.drop 14)[i]? = some (packet[14 + i]?.getD 0) := by
  rw [List.getElem?_drop, List.getElem?_eq_getElem hlength]
  rfl

theorem skipHeaders_eq (frame : CapturedFrame) :
    skipHeaders frame.toFrame =
      if frame.packet.length < 14 then
        some (.error (tooShort frame.ts "Ethernet header"))
      else if frame.packet.length < 34 then
        some (.error (tooShort frame.ts "IP header"))
      else if frame.packet.length < 14 + frame.ipLength then
        some (.error (tooShort frame.ts "IP header with options"))
      else if frame.packet[23]?.getD 0 ≠ 17 then
        some (.error (problemPkt frame.ts "non-UDP packet"))
      else if frame.packet.length < frame.payloadOffset then
        some (.error (tooShort frame.ts "UDP header"))
      else
        some (.ok (frame.payload, Int32.ofNat frame.payload.length)) := by
  have hlt := frame.length_lt
  have hcaplen : frame.caplen.toInt32 = Int32.ofNat frame.packet.length := by
    rw [toInt32_eq_ofNat, frame.available]
  have hcheck : sizeT (Int32.ofNat frame.packet.length) < 14 ↔
      frame.packet.length < 14 := sizeT_lt_iff hlt (by norm_num)
  unfold skipHeaders
  rw [hcaplen]
  by_cases hether : frame.packet.length < 14
  · rw [if_pos (hcheck.mpr hether), if_pos hether]
  · have hrest : Int32.ofNat frame.packet.length - 14 =
        Int32.ofNat (frame.packet.length - 14) := by
      rw [Int32.ofNat_sub _ _ (by omega)]
      rfl
    have hip := skipIpHeader_ofNat
      (by omega : frame.packet.length - 14 < 2 ^ 32) frame.ts
      (frame.packet.drop 14)
      (fun h => getElem?_drop_headers (i := 0) (by omega))
      (fun h => getElem?_drop_headers (i := 9) (by omega))
    have hudp := skipUdpHeader_ofNat
      (by omega : frame.packet.length - 14 - frame.ipLength < 2 ^ 32) frame.ts
      ((frame.packet.drop 14).drop frame.ipLength)
    have hpayload : ((frame.packet.drop 14).drop frame.ipLength).drop 8 =
        frame.payload := by
      rw [List.drop_drop, List.drop_drop]
      rfl
    have hlength : frame.packet.length - 14 - frame.ipLength - 8 =
        frame.payload.length := by
      rw [Frame.payload, Frame.payloadOffset, List.length_drop]
      omega
    have hoffset : frame.payloadOffset = 14 + frame.ipLength + 8 := rfl
    have hipLength : (frame.packet[14 + 0]?.getD 0).toNat % 16 * 4 =
        frame.ipLength := rfl
    rw [hipLength, hudp, hpayload, hlength] at hip
    rw [if_neg (mt hcheck.mp hether), if_neg hether, hrest, hip]
    split_ifs <;> first | omega | rfl

/-- No header check reads behind the capture, and together they accept exactly
the frames whose headers were captured. -/
theorem skipHeaders_captured (frame : CapturedFrame) :
    (frame.Accepted ∧ skipHeaders frame.toFrame =
        some (.ok (frame.payload, Int32.ofNat frame.payload.length))) ∨
      (¬ frame.Accepted ∧
        ∃ line, skipHeaders frame.toFrame = some (.error line)) := by
  have hproto : 34 ≤ frame.packet.length →
      (frame.packet[23]? = some 17 ↔ frame.packet[23]?.getD 0 = 17) := by
    intro hlength
    have hget : frame.packet[23]? = some (frame.packet[23]?.getD 0) := by
      rw [List.getElem?_eq_getElem (by omega)]
      rfl
    rw [hget]
    simp
  rw [skipHeaders_eq, Frame.Accepted]
  by_cases hip : 34 ≤ frame.packet.length
  · rw [hproto hip]
    have hoffset : frame.payloadOffset = 14 + frame.ipLength + 8 := rfl
    rw [if_neg (by omega), if_neg (by omega)]
    split_ifs with hopt hudp hshort
    · exact Or.inr ⟨by omega, _, rfl⟩
    · exact Or.inr ⟨fun haccepted => hudp haccepted.2.2, _, rfl⟩
    · exact Or.inr ⟨by omega, _, rfl⟩
    · exact Or.inl ⟨⟨hip, by omega, not_not.mp hudp⟩, rfl⟩
  · right
    refine ⟨fun haccepted => hip haccepted.1, ?_⟩
    split_ifs
    all_goals first | exact ⟨_, rfl⟩ | omega

/-! ## Reads of the payload -/

theorem processRecord_avoids_outOfRange
    (cfg : Config) (loop_id : Int32) (st : Stock) :
    Avoids .outOfRange (processRecord cfg loop_id st) := by
  have hquery : Avoids .outOfRange (allPriceOK cfg) := by
    intro s s'
    obtain ⟨ok, s₁, hquery⟩ := exists_query cfg s
    rw [hquery.run]
    simp
  have hpop : Avoids .outOfRange (popFrontAt st.id_) := by
    apply (avoids_get _).bind
    intro s
    cases popFront (s.deque st.id_) with
    | none => exact avoids_throw (by decide)
    | some rest => exact avoids_set _ _
  have hpush : Avoids .outOfRange (pushBack loop_id st) := avoids_modify _ _
  have hstore : Avoids .outOfRange (storeRecord cfg loop_id st) :=
    hquery.bind fun _ => (hpop.bind fun _ => hpush).ite hpush
  have hgetAll : Avoids .outOfRange (getAll cfg loop_id) := by
    apply (avoids_modify _ _).bind
    intro _
    apply hquery.bind
    intro ok
    exact ((avoids_modify _ _).bind fun _ => avoids_modify _ _).ite
      (avoids_modify _ _)
  apply (avoids_get _).bind
  intro s
  apply Avoids.ite _ (avoids_pure _ _)
  apply hstore.bind
  intro _
  apply (avoids_get _).bind
  intro s'
  exact hgetAll.ite (avoids_pure _ _)

/-- While all records are there, the decode loop is the record loop over
them. -/
theorem decodeLoop_eq_forM
    {cfg : Config} {loop_id : Int32} {n : ℕ} {packet : Packet}
    {records : List Stock} (hdecode : decodeRecords n packet = some records) :
    decodeLoop cfg loop_id n packet =
      forM records (processRecord cfg loop_id) := by
  induction n generalizing packet records with
  | zero =>
      rw [decodeRecords, Option.some.injEq] at hdecode
      subst hdecode
      rfl
  | succ n ih =>
      rw [decodeRecords] at hdecode
      cases hfirst : Stock.decode packet with
      | none => simp [hfirst] at hdecode
      | some st =>
          cases hrest : decodeRecords n (packet.drop 20) with
          | none => simp [hfirst, hrest] at hdecode
          | some rest =>
              simp only [hfirst, hrest, Option.bind_eq_bind, Option.bind_some,
                Option.pure_def, Option.some.injEq] at hdecode
              subst hdecode
              rw [decodeLoop, hfirst, ih hrest, List.forM_cons]
              rfl

theorem decodeLoop_outOfRange
    {cfg : Config} {s : Server} (hsound : s.Sound cfg) (loop_id : Int32)
    {n : ℕ} {packet : Packet} (hshort : packet.length < n * 20) :
    ∃ s', decodeLoop cfg loop_id n packet s = .error .outOfRange s' := by
  induction n generalizing packet s with
  | zero => omega
  | succ n ih =>
      rcases lt_or_ge packet.length 20 with hlt | hge
      · refine ⟨s, ?_⟩
        rw [decodeLoop, Stock.decode_of_length_lt hlt]
        rfl
      · obtain ⟨st, hdecode, _⟩ := Stock.decode_of_length hge
        have hstep := recordStep_recordState hsound loop_id st
        have hmore : (packet.drop 20).length < n * 20 := by
          rw [List.length_drop]
          omega
        obtain ⟨s', hrest⟩ := ih (hstep.sound hsound) hmore
        refine ⟨s', ?_⟩
        rw [decodeLoop, hdecode]
        change (processRecord cfg loop_id st >>= fun _ =>
          decodeLoop cfg loop_id n (packet.drop 20)) s = _
        rw [bind_apply_of_ok (processRecord_ok hsound loop_id st), hrest]

theorem unlessDone_avoids
    {e : Fault} {body : ServerM Unit} (hbody : Avoids e body)
    (loop_id : Int32) : Avoids e (unlessDone loop_id body) := by
  intro s s'
  rw [unlessDone_apply]
  split_ifs
  · simp
  · exact hbody _ s'

theorem fwrite_apply
    {packet : Packet} (hlt : packet.length < 2 ^ 32) (s : Server) :
    fwrite packet (sizeT (Int32.ofNat packet.length)) s =
      if packet.length < 2 ^ 31 then
        .ok () { s with g_pFile := s.g_pFile ++ packet }
      else .error .outOfRange s := by
  rw [fwrite, readBytes, toNat_sizeT_ofNat hlt]
  split_ifs with hfits hle
  · rw [List.take_length]
    rfl
  · omega
  · omega
  · rfl

theorem handlePayload_apply
    {cfg : Config} {packet : Packet} {loop_id : Int32}
    (hloop : readLoopId packet = some loop_id)
    (hlt : packet.length < 2 ^ 32) (s : Server) :
    handlePayload cfg packet (Int32.ofNat packet.length) s =
      if packet.length < 2 ^ 31 then
        unlessDone loop_id
          (decodeLoop cfg loop_id cfg.groupStock (packet.drop 4))
          { s with g_pFile := s.g_pFile ++ packet }
      else .error .outOfRange s := by
  have hfwrite := fwrite_apply hlt s
  rw [handlePayload, hloop]
  change (fwrite packet (sizeT (Int32.ofNat packet.length)) >>= fun _ =>
    unlessDone loop_id
      (decodeLoop cfg loop_id cfg.groupStock (packet.drop 4))) s = _
  rw [bind_apply, hfwrite]
  split_ifs <;> rfl

theorem handlePayload_of_length_lt
    {cfg : Config} {packet : Packet} (hshort : packet.length < 4)
    (length : Int32) (s : Server) :
    handlePayload cfg packet length s = .error .outOfRange s := by
  rw [handlePayload, readLoopId_of_length_lt hshort]
  rfl

theorem skipHeaders_of_accepted
    {frame : CapturedFrame} (haccepted : frame.Accepted) :
    skipHeaders frame.toFrame =
      some (.ok (frame.payload, Int32.ofNat frame.payload.length)) := by
  rcases skipHeaders_captured frame with ⟨_, hskip⟩ | ⟨hnot, _⟩
  · exact hskip
  · exact absurd haccepted hnot

theorem myCallback_of_accepted
    {cfg : Config} {frame : CapturedFrame} (haccepted : frame.Accepted)
    (s : Server) :
    myCallback cfg frame.toFrame s =
      (handlePayload cfg frame.payload (Int32.ofNat frame.payload.length) >>=
        fun _ => pure none) s := by
  rw [myCallback, skipHeaders_of_accepted haccepted]
  rfl

theorem myCallback_of_rejected
    {cfg : Config} {frame : CapturedFrame} (hrejected : ¬ frame.Accepted)
    (s : Server) :
    ∃ line, myCallback cfg frame.toFrame s = .ok (some line) s := by
  rcases skipHeaders_captured frame with ⟨haccepted, _⟩ | ⟨_, line, hskip⟩
  · exact absurd haccepted hrejected
  · refine ⟨line, ?_⟩
    rw [myCallback, hskip]
    rfl

namespace Frame

theorem length_payload_lt (frame : CapturedFrame) :
    frame.payload.length < 2 ^ 32 := by
  have hlt := frame.length_lt
  rw [Frame.payload, List.length_drop]
  omega

/-- What the callback reads of the payload was captured, and the length given
to `fwrite` is not negative.  A payload of the last completed loop is left
after its loop id; any other one is read to its last record. -/
def PayloadFits (cfg : Config) (frame : Frame) (s : Server) : Prop :=
  4 ≤ frame.payload.length ∧ frame.payload.length < 2 ^ 31 ∧
    (readLoopId frame.payload = some s.g_last_done_loop ∨
      cfg.payloadSize ≤ frame.payload.length)

end Frame

theorem handlePayload_avoids_outOfRange
    {cfg : Config} {frame : CapturedFrame} {s : Server}
    (hfits : frame.PayloadFits cfg s) (s' : Server) :
    handlePayload cfg frame.payload (Int32.ofNat frame.payload.length) s ≠
      .error .outOfRange s' := by
  have hsize : cfg.payloadSize = cfg.groupStock * 20 + 4 := rfl
  obtain ⟨loop_id, hloop, _⟩ := readLoopId_of_length hfits.1
  rw [handlePayload_apply hloop (Frame.length_payload_lt frame),
    if_pos hfits.2.1]
  rcases hfits.2.2 with hdone | hlong
  · rw [hloop, Option.some.injEq] at hdone
    rw [unlessDone_apply, if_pos hdone.symm]
    simp
  · have hmore : cfg.groupStock * 20 ≤ (frame.payload.drop 4).length := by
      rw [List.length_drop]
      omega
    obtain ⟨records, hrecords, _⟩ := decodeRecords_of_length hmore
    rw [decodeLoop_eq_forM hrecords]
    exact unlessDone_avoids
      (avoids_forM (processRecord_avoids_outOfRange cfg loop_id) records)
      loop_id _ s'

theorem handlePayload_outOfRange
    {cfg : Config} {frame : CapturedFrame} {s : Server}
    (hsound : s.Sound cfg) (hnot : ¬ frame.PayloadFits cfg s) :
    ∃ s', handlePayload cfg frame.payload
      (Int32.ofNat frame.payload.length) s = .error .outOfRange s' := by
  have hsize : cfg.payloadSize = cfg.groupStock * 20 + 4 := rfl
  rcases lt_or_ge frame.payload.length 4 with hshort | hloopThere
  · exact ⟨s, handlePayload_of_length_lt hshort _ s⟩
  · obtain ⟨loop_id, hloop, _⟩ := readLoopId_of_length hloopThere
    rw [handlePayload_apply hloop (Frame.length_payload_lt frame)]
    by_cases hint : frame.payload.length < 2 ^ 31
    · have hrecords : s.g_last_done_loop ≠ loop_id ∧
          frame.payload.length < cfg.payloadSize := by
        by_contra hread
        apply hnot
        refine ⟨hloopThere, hint, ?_⟩
        rw [hloop]
        by_cases hdone : s.g_last_done_loop = loop_id
        · exact Or.inl (by rw [hdone])
        · exact Or.inr (not_lt.mp fun hlt => hread ⟨hdone, hlt⟩)
      have hshort : (frame.payload.drop 4).length < cfg.groupStock * 20 := by
        rw [List.length_drop]
        omega
      have hstart : ({ s with
          g_pFile := s.g_pFile ++ frame.payload
          g_last_loop := loop_id } : Server).Sound cfg :=
        ⟨hsound.keys, hsound.full, hsound.counter⟩
      rw [if_pos hint, unlessDone_apply, if_neg hrecords.1]
      exact decodeLoop_outOfRange hstart loop_id hshort
    · rw [if_neg hint]
      exact ⟨s, rfl⟩

/-- On a captured frame the callback reads only captured bytes as long as an
accepted payload is long enough.  The condition is enough in every state, and
it is exact in every state the server can be in. -/
theorem myCallback_reads_captured_iff
    (cfg : Config) (frame : CapturedFrame) (s : Server) :
    ((frame.Accepted → frame.PayloadFits cfg s) →
        ∀ s', myCallback cfg frame.toFrame s ≠ .error .outOfRange s') ∧
      (s.Sound cfg →
        (∀ s', myCallback cfg frame.toFrame s ≠ .error .outOfRange s') →
          frame.Accepted → frame.PayloadFits cfg s) := by
  constructor
  · intro hfits s'
    by_cases haccepted : frame.Accepted
    · rw [myCallback_of_accepted haccepted, bind_apply]
      have havoids := handlePayload_avoids_outOfRange (hfits haccepted)
      cases hresult : handlePayload cfg frame.payload
          (Int32.ofNat frame.payload.length) s with
      | ok u s₁ => simp
      | error e s₁ =>
          intro heq
          rw [EStateM.Result.error.injEq] at heq
          exact havoids s₁ (by rw [hresult, heq.1])
    · obtain ⟨line, hrun⟩ := myCallback_of_rejected haccepted s
      rw [hrun]
      simp
  · intro hsound hreads haccepted
    by_contra hnot
    obtain ⟨s', hfault⟩ := handlePayload_outOfRange hsound hnot
    apply hreads s'
    rw [myCallback_of_accepted haccepted, bind_apply_of_error hfault]

def udpFrame (payload : List UInt8) : List UInt8 :=
  List.replicate 12 0 ++ [8, 0] ++
    [69, 0, UInt8.ofNat ((28 + payload.length) / 256),
      UInt8.ofNat (28 + payload.length), 0, 0, 64, 0, 64, 17, 0, 0,
      127, 0, 0, 1, 127, 0, 0, 1] ++
    [195, 80, 17, 215, UInt8.ofNat ((8 + payload.length) / 256),
      UInt8.ofNat (8 + payload.length), 0, 0] ++ payload

theorem length_udpFrame (payload : List UInt8) :
    (udpFrame payload).length = payload.length + 42 := by
  simp [udpFrame]

def loopbackFrame (payload : List UInt8) (hfits : payload.length < 2 ^ 31) :
    CapturedFrame where
  ts := ⟨0, 0⟩
  caplen := UInt32.ofNat (payload.length + 42)
  packet := udpFrame payload
  available := by
    rw [length_udpFrame, UInt32.toNat_ofNat', Nat.mod_eq_of_lt (by omega)]

theorem loopbackFrame_payloadOffset
    {payload : List UInt8} (hfits : payload.length < 2 ^ 31) :
    (loopbackFrame payload hfits).payloadOffset = 42 := by
  have hfirst : (udpFrame payload)[14]? = some 69 := rfl
  rw [Frame.payloadOffset, Frame.ipLength]
  change 14 + ((udpFrame payload)[14]?.getD 0).toNat % 16 * 4 + 8 = 42
  rw [hfirst]
  rfl

theorem loopbackFrame_payload
    {payload : List UInt8} (hfits : payload.length < 2 ^ 31) :
    (loopbackFrame payload hfits).payload = payload := by
  rw [Frame.payload, loopbackFrame_payloadOffset]
  rfl

theorem loopbackFrame_accepted
    {payload : List UInt8} (hfits : payload.length < 2 ^ 31) :
    (loopbackFrame payload hfits).Accepted := by
  have hlength := length_udpFrame payload
  have hoffset := loopbackFrame_payloadOffset hfits
  change 34 ≤ (udpFrame payload).length ∧ _ ≤ (udpFrame payload).length ∧ _
  rw [hoffset]
  exact ⟨by omega, by omega, rfl⟩

theorem length_zeroGroup_lt :
    (List.replicate 404 (0 : UInt8)).length < 2 ^ 31 := by
  rw [List.length_replicate]
  norm_num

theorem myCallback_reads_captured_zeroGroup :
    let frame := loopbackFrame (List.replicate 404 0) length_zeroGroup_lt
    frame.Accepted ∧
      frame.PayloadFits Config.shipped (Server.initial Config.shipped) ∧
      ∀ s', myCallback Config.shipped frame.toFrame
        (Server.initial Config.shipped) ≠ .error .outOfRange s' := by
  intro frame
  have haccepted : frame.Accepted := loopbackFrame_accepted _
  have hlength : frame.payload.length = 404 := by
    rw [loopbackFrame_payload, List.length_replicate]
  have hfits : frame.PayloadFits Config.shipped
      (Server.initial Config.shipped) := by
    refine ⟨by omega, by omega, Or.inr ?_⟩
    rw [hlength]
    decide
  have hexact := myCallback_reads_captured_iff Config.shipped frame
    (Server.initial Config.shipped)
  have hreads := hexact.1 fun _ => hfits
  exact ⟨haccepted, hexact.2 (Server.initial_sound Config.shipped) hreads
    haccepted, hreads⟩

/-- The callback accepts a datagram without payload and reads a loop id behind
the capture. -/
theorem myCallback_emptyDatagram_outOfRange :
    let frame := loopbackFrame [] (Nat.two_pow_pos 31)
    frame.Accepted ∧
      myCallback Config.shipped frame.toFrame
        (Server.initial Config.shipped) =
          .error .outOfRange (Server.initial Config.shipped) := by
  exact ⟨loopbackFrame_accepted _, rfl⟩

end StockFeed
