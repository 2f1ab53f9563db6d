import StockFeed.Global

/-!
# The datagram: packet builder and packet reader

One datagram carries a loop id and `GROUP_STOCK` records.  The client fills a
stack buffer at computed offsets; the server walks a pointer over the received
bytes.  The two share no code, and this file shows that they are inverse to
each other, for all 32-bit values and at every record offset.

A pointer into received memory is a `Packet`: the bytes from the pointer to
the end of what may be read.  Moving the pointer drops bytes, and reading
behind the end gives `none`.
-/

namespace StockFeed

abbrev Packet := List UInt8

structure Payload where
  loop_id : Int32
  records : List Stock
  deriving DecidableEq, Repr

/-! ## Reader of the server -/

def readBytes (n : ℕ) (packet : Packet) : Option (List UInt8) :=
  if n ≤ packet.length then some (packet.take n) else none

/-- `stock::decode`: copy 20 bytes into `buffer_`, then read the fields. -/
def Stock.decode (msg : Packet) : Option Stock :=
  readBytes 20 msg >>= Stock.decodeBuffer

/-- `packet[0] << 24 | packet[1] << 16 | packet[2] << 8 | packet[3]`. -/
def readLoopId (packet : Packet) : Option Int32 := do
  return intOfBytes (← packet[0]?) (← packet[1]?) (← packet[2]?) (← packet[3]?)

def decodeRecords : ℕ → Packet → Option (List Stock)
  | 0, _ => some []
  | n + 1, packet => do
      let st ← Stock.decode packet
      let rest ← decodeRecords n (packet.drop 20)
      return st :: rest

def readDatagram (cfg : Config) (packet : Packet) : Option Payload := do
  let loop_id ← readLoopId packet
  let records ← decodeRecords cfg.groupStock (packet.drop 4)
  return ⟨loop_id, records⟩

/-! ## Builder of the client -/

def memcpy (buffer : List UInt8) (offset : ℕ) (data : List UInt8) :
    List UInt8 :=
  buffer.take offset ++ data ++ buffer.drop (offset + data.length)

/-- The four assignments `buffer[k] = (char)(lc >> ...)`. -/
def writeLoopId (buffer : List UInt8) (lc : Int32) : List UInt8 :=
  (((buffer.set 0 (charOf (lc >>> 24))).set 1 (charOf (lc >>> 16))).set 2
    (charOf (lc >>> 8))).set 3 (charOf lc)

/-- The loop over `j`, from record `j` on. -/
def writeStocks (buffer : List UInt8) (j : ℕ) : List Stock → List UInt8
  | [] => buffer
  | stk :: rest =>
      writeStocks (memcpy buffer (20 * j + 4) stk.encode) (j + 1) rest

/-- Body of the loop over `i` in `udpClient`; `buffer` is the uninitialised
array. -/
def buildDatagram (buffer : List UInt8) (lc : Int32) (stocks : List Stock) :
    List UInt8 :=
  writeStocks (writeLoopId buffer lc) 0 stocks

/-! ## What the builder produces -/

def Payload.bytes (payload : Payload) : List UInt8 :=
  Stock.writeInt payload.loop_id ++ payload.records.flatMap Stock.encode

theorem length_flatMap_encode (stocks : List Stock) :
    (stocks.flatMap Stock.encode).length = stocks.length * 20 := by
  induction stocks with
  | nil => rfl
  | cons stk rest ih =>
      rw [List.flatMap_cons, List.length_append, ih, Stock.encode_length,
        List.length_cons]
      omega

theorem Payload.length_bytes (payload : Payload) :
    payload.bytes.length = payload.records.length * 20 + 4 := by
  rw [Payload.bytes, List.length_append, length_flatMap_encode,
    Stock.writeInt_length]
  omega

theorem writeLoopId_eq
    {buffer : List UInt8} (hlength : 4 ≤ buffer.length) (lc : Int32) :
    writeLoopId buffer lc = Stock.writeInt lc ++ buffer.drop 4 := by
  match buffer, hlength with
  | _ :: _ :: _ :: _ :: rest, _ => rfl

theorem memcpy_append (written rest data : List UInt8) :
    memcpy (written ++ rest) written.length data =
      written ++ data ++ rest.drop data.length := by
  unfold memcpy
  rw [List.take_left, List.drop_length_add_append]

theorem writeStocks_eq
    {written : List UInt8} {j : ℕ} (hwritten : written.length = 20 * j + 4)
    (rest : List UInt8) (stocks : List Stock) :
    writeStocks (written ++ rest) j stocks =
      written ++ stocks.flatMap Stock.encode ++
        rest.drop (stocks.length * 20) := by
  induction stocks generalizing written rest j with
  | nil => simp [writeStocks]
  | cons stk more ih =>
      have hcopy := memcpy_append written rest stk.encode
      rw [hwritten] at hcopy
      have hnext : (written ++ stk.encode).length = 20 * (j + 1) + 4 := by
        rw [List.length_append, hwritten, Stock.encode_length]
        omega
      rw [writeStocks, hcopy, ih hnext, Stock.encode_length, List.drop_drop,
        List.flatMap_cons, List.length_cons, Nat.succ_mul, Nat.add_comm 20]
      simp only [List.append_assoc]

/-- Whatever was in the buffer, a built datagram is its loop id and its
records. -/
theorem buildDatagram_eq_bytes
    {cfg : Config} {buffer : List UInt8} (payload : Payload)
    (hbuffer : buffer.length = cfg.payloadSize)
    (hrecords : payload.records.length = cfg.groupStock) :
    buildDatagram buffer payload.loop_id payload.records = payload.bytes := by
  have hsize : buffer.length = cfg.groupStock * 20 + 4 := hbuffer
  have hwritten : (Stock.writeInt payload.loop_id).length = 20 * 0 + 4 := rfl
  have hrest : (buffer.drop 4).drop (payload.records.length * 20) = [] := by
    rw [List.drop_drop, List.drop_eq_nil_iff]
    omega
  rw [buildDatagram, writeLoopId_eq (by omega), writeStocks_eq hwritten, hrest,
    List.append_nil, Payload.bytes]

/-! ## What the reader returns -/

theorem readBytes_append
    {n : ℕ} {data : List UInt8} (hlength : data.length = n)
    (rest : List UInt8) : readBytes n (data ++ rest) = some data := by
  subst hlength
  simp [readBytes]

theorem Stock.decode_encode_append (stk : Stock) (rest : List UInt8) :
    Stock.decode (stk.encode ++ rest) = some stk := by
  rw [Stock.decode, readBytes_append (Stock.encode_length stk)]
  exact Stock.decodeBuffer_encode stk

theorem Stock.decode_of_length
    {msg : Packet} (hlength : 20 ≤ msg.length) :
    ∃ stk, Stock.decode msg = some stk ∧ msg = stk.encode ++ msg.drop 20 := by
  have htake : (msg.take 20).length = 20 := by
    rw [List.length_take]
    omega
  obtain ⟨stk, hdecode, hencode⟩ := Stock.decodeBuffer_of_length htake
  refine ⟨stk, ?_, ?_⟩
  · rw [Stock.decode, readBytes, if_pos hlength]
    exact hdecode
  · rw [hencode, List.take_append_drop]

theorem Stock.decode_of_length_lt
    {msg : Packet} (hlength : msg.length < 20) : Stock.decode msg = none := by
  rw [Stock.decode, readBytes, if_neg (by omega)]
  rfl

theorem readLoopId_writeInt_append (loop_id : Int32) (rest : List UInt8) :
    readLoopId (Stock.writeInt loop_id ++ rest) = some loop_id := by
  simp [readLoopId, Stock.writeInt, intOfBytes_charOf]

theorem readLoopId_of_length
    {packet : Packet} (hlength : 4 ≤ packet.length) :
    ∃ loop_id, readLoopId packet = some loop_id ∧
      packet = Stock.writeInt loop_id ++ packet.drop 4 := by
  match packet, hlength with
  | b0 :: b1 :: b2 :: b3 :: rest, _ =>
      refine ⟨intOfBytes b0 b1 b2 b3, rfl, ?_⟩
      rw [Stock.writeInt_intOfBytes]
      rfl

theorem readLoopId_of_length_lt
    {packet : Packet} (hlength : packet.length < 4) :
    readLoopId packet = none := by
  match packet, hlength with
  | [], _ => rfl
  | [_], _ => rfl
  | [_, _], _ => rfl
  | [_, _, _], _ => rfl

theorem decodeRecords_append (records : List Stock) (rest : List UInt8) :
    decodeRecords records.length (records.flatMap Stock.encode ++ rest) =
      some records := by
  induction records with
  | nil => rfl
  | cons stk more ih =>
      have hdrop : (stk.encode ++ (more.flatMap Stock.encode ++ rest)).drop 20 =
          more.flatMap Stock.encode ++ rest :=
        List.drop_left' (Stock.encode_length stk)
      rw [List.flatMap_cons, List.append_assoc, List.length_cons, decodeRecords,
        Stock.decode_encode_append, hdrop, ih]
      rfl

/-- Long enough memory always decodes, and the records determine the bytes
they were read from. -/
theorem decodeRecords_of_length
    {n : ℕ} {packet : Packet} (hlength : n * 20 ≤ packet.length) :
    ∃ records, decodeRecords n packet = some records ∧ records.length = n ∧
      packet = records.flatMap Stock.encode ++ packet.drop (n * 20) := by
  induction n generalizing packet with
  | zero => exact ⟨[], rfl, rfl, by simp⟩
  | succ n ih =>
      rcases Stock.decode_of_length (by omega : 20 ≤ packet.length) with
        ⟨stk, hdecode, hfirst⟩
      have hmore : n * 20 ≤ (packet.drop 20).length := by
        rw [List.length_drop]
        omega
      obtain ⟨records, hrecords, hcount, hrest⟩ := ih hmore
      refine ⟨stk :: records, ?_, by rw [List.length_cons, hcount], ?_⟩
      · rw [decodeRecords, hdecode, hrecords]
        rfl
      · rw [List.drop_drop] at hrest
        rw [List.flatMap_cons, List.append_assoc, Nat.succ_mul, Nat.add_comm,
          ← hrest]
        exact hfirst

theorem readDatagram_bytes_append
    {cfg : Config} (payload : Payload)
    (hrecords : payload.records.length = cfg.groupStock) (rest : List UInt8) :
    readDatagram cfg (payload.bytes ++ rest) = some payload := by
  have hdrop : (Stock.writeInt payload.loop_id ++
      (payload.records.flatMap Stock.encode ++ rest)).drop 4 =
        payload.records.flatMap Stock.encode ++ rest := rfl
  rw [readDatagram, Payload.bytes, List.append_assoc,
    readLoopId_writeInt_append, hdrop, ← hrecords, decodeRecords_append]
  rfl

theorem readDatagram_of_length
    {cfg : Config} {packet : Packet} (hlength : cfg.payloadSize ≤ packet.length) :
    ∃ payload, readDatagram cfg packet = some payload ∧
      payload.records.length = cfg.groupStock ∧
      packet = payload.bytes ++ packet.drop cfg.payloadSize := by
  have hsize : cfg.payloadSize = cfg.groupStock * 20 + 4 := rfl
  rcases readLoopId_of_length (by omega : 4 ≤ packet.length) with
    ⟨loop_id, hloop, hfirst⟩
  have hmore : cfg.groupStock * 20 ≤ (packet.drop 4).length := by
    rw [List.length_drop]
    omega
  obtain ⟨records, hrecords, hcount, hrest⟩ := decodeRecords_of_length hmore
  refine ⟨⟨loop_id, records⟩, ?_, hcount, ?_⟩
  · rw [readDatagram, hloop, hrecords]
    rfl
  · rw [List.drop_drop] at hrest
    rw [Payload.bytes, List.append_assoc, hsize, Nat.add_comm, ← hrest]
    exact hfirst

/-- Builder and reader are inverse to each other: reading a built buffer
returns what was put in, and rebuilding from what was read restores the
payload byte for byte. -/
theorem datagram_codec_bijective
    (cfg : Config) (buffer : List UInt8)
    (hbuffer : buffer.length = cfg.payloadSize) :
    (∀ (loop_id : Int32) (stocks : List Stock),
        stocks.length = cfg.groupStock →
        readDatagram cfg (buildDatagram buffer loop_id stocks) =
          some ⟨loop_id, stocks⟩) ∧
      ∀ packet : Packet, packet.length = cfg.payloadSize →
        ∃ payload, readDatagram cfg packet = some payload ∧
          payload.records.length = cfg.groupStock ∧
          buildDatagram buffer payload.loop_id payload.records = packet := by
  constructor
  · intro loop_id stocks hstocks
    have hbuild := buildDatagram_eq_bytes ⟨loop_id, stocks⟩ hbuffer hstocks
    have hread := readDatagram_bytes_append ⟨loop_id, stocks⟩ hstocks []
    rw [List.append_nil] at hread
    rw [hbuild, hread]
  · intro packet hlength
    rcases readDatagram_of_length hlength.ge with
      ⟨payload, hread, hrecords, hbytes⟩
    refine ⟨payload, hread, hrecords, ?_⟩
    rw [buildDatagram_eq_bytes payload hbuffer hrecords, hbytes,
      List.drop_eq_nil_of_le (by omega), List.append_nil]

/-- Negative and extreme values, in a buffer which held `0xff` bytes. -/
theorem datagram_codec_extremes :
    let buffer : List UInt8 := List.replicate 404 255
    let stocks : List Stock :=
      List.replicate 20 ⟨-1, Int32.minValue, Int32.maxValue, 0, -2⟩
    buffer.length = Config.shipped.payloadSize ∧
      readDatagram Config.shipped (buildDatagram buffer (-1) stocks) =
        some ⟨-1, stocks⟩ := by
  intro buffer stocks
  have hbuffer : buffer.length = Config.shipped.payloadSize := by
    rw [List.length_replicate]
    rfl
  have hstocks : stocks.length = Config.shipped.groupStock := by
    rw [List.length_replicate]
    rfl
  exact ⟨hbuffer, (datagram_codec_bijective Config.shipped buffer hbuffer).1
    (-1) stocks hstocks⟩

end StockFeed
