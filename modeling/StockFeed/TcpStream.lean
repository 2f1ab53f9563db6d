import StockFeed.Datagram
import Mathlib.Data.List.Induction

/-!
# The TCP connection

`tcpClient` sends stocks as consecutive encodings, and `HandleClient` receives
them into a buffer of `BUFFSIZE` bytes.  The first result of `recv` is never
decoded; each later one, the final 0 included, is followed by a decode of the
buffer's first 20 bytes, whatever part of them it has replaced.  So the number
of decoded stocks is the number of pieces the stream was cut into.

The main result gives the exact condition under which these stocks are the ones
sent, for each cutting of the stream, and says that only the empty list is
received whole for all cuttings.
-/

namespace StockFeed

/-! ## HandleClient -/

/-- `BUFFSIZE`. -/
def buffSize : ℕ := 32

/-- Bytes one call of `recv` stored. -/
structure Chunk where
  bytes : List UInt8
  length_le : bytes.length ≤ buffSize

/-- A negative result of `recv`, or the bytes it stored. -/
inductive RecvResult
  | failed
  | received (chunk : Chunk)

/-- `unsigned char buffer[BUFFSIZE]`, at first not initialised. -/
structure ReceiveBuffer where
  bytes : List UInt8
  length_bytes : bytes.length = buffSize

def ReceiveBuffer.write (buffer : ReceiveBuffer) (chunk : Chunk) :
    ReceiveBuffer where
  bytes := chunk.bytes ++ buffer.bytes.drop chunk.bytes.length
  length_bytes := by
    have hle := chunk.length_le
    rw [List.length_append, List.length_drop, buffer.length_bytes]
    omega

/-- How a connection ended: `close`, a `Die` with its message, a `recv` which
has not returned, or a decode which left the buffer. -/
inductive ConnectionEnd
  | closed
  | died (mess : String)
  | waiting
  | outOfRange
  deriving DecidableEq, Repr

/-- The stocks printed for a connection, and its end. -/
structure Connection where
  decoded : List Stock
  ended : ConnectionEnd
  deriving DecidableEq, Repr

/-- `while (received > 0)`. -/
def whileReceived : ℕ → ReceiveBuffer → List RecvResult → Connection
  | 0, _, _ => ⟨[], .closed⟩
  | _ + 1, _, [] => ⟨[], .waiting⟩
  | _ + 1, _, .failed :: _ =>
      ⟨[], .died "Failed to receive additional bytes from client"⟩
  | _ + 1, buffer, .received chunk :: results =>
      let buffer := buffer.write chunk
      match Stock.decode buffer.bytes with
      | none => ⟨[], .outOfRange⟩
      | some stk =>
          let later := whileReceived chunk.bytes.length buffer results
          ⟨stk :: later.decoded, later.ended⟩

def handleClient (buffer : ReceiveBuffer) : List RecvResult → Connection
  | [] => ⟨[], .waiting⟩
  | .failed :: _ => ⟨[], .died "Failed to receive initial bytes from client"⟩
  | .received chunk :: results =>
      whileReceived chunk.bytes.length (buffer.write chunk) results

/-! ## tcpClient -/

/-- What `tcpClient` sends for a list of stocks. -/
def tcpStream (sent : List Stock) : List UInt8 :=
  sent.flatMap Stock.encode

/-- The chunks are a cutting of the stream. -/
structure IsCutting (stream : List UInt8) (chunks : List Chunk) : Prop where
  whole : chunks.flatMap Chunk.bytes = stream
  nonempty : ∀ chunk ∈ chunks, chunk.bytes ≠ []

/-- The results of `recv` for a cutting, ending with a 0. -/
def recvResults (chunks : List Chunk) : List RecvResult :=
  chunks.map .received ++ [.received ⟨[], Nat.zero_le _⟩]

/-! ## The buffer -/

def ReceiveBuffer.after (buffer : ReceiveBuffer) (chunks : List Chunk) :
    ReceiveBuffer :=
  chunks.foldl ReceiveBuffer.write buffer

/-- Byte `i` of the latest chunk which is longer than `i`. -/
def lastReceived (buffer : ReceiveBuffer) (chunks : List Chunk) (i : ℕ) :
    Option UInt8 :=
  match chunks.reverse.find? fun chunk => i < chunk.bytes.length with
  | some chunk => chunk.bytes[i]?
  | none => buffer.bytes[i]?

theorem ReceiveBuffer.getElem?_write
    (buffer : ReceiveBuffer) (chunk : Chunk) (i : ℕ) :
    (buffer.write chunk).bytes[i]? =
      if i < chunk.bytes.length then chunk.bytes[i]? else buffer.bytes[i]? := by
  rw [write]
  split_ifs with hlt
  · exact List.getElem?_append_left hlt
  · rw [List.getElem?_append_right (not_lt.mp hlt), List.getElem?_drop]
    congr 1
    omega

theorem ReceiveBuffer.getElem?_after
    (buffer : ReceiveBuffer) (chunks : List Chunk) (i : ℕ) :
    (buffer.after chunks).bytes[i]? = lastReceived buffer chunks i := by
  induction chunks using List.reverseRecOn with
  | nil => rfl
  | append_singleton chunks chunk ih =>
      have hstep : buffer.after (chunks ++ [chunk]) =
          (buffer.after chunks).write chunk := by
        rw [after, List.foldl_append]
        rfl
      rw [hstep, getElem?_write, ih, lastReceived, lastReceived,
        List.reverse_append, List.reverse_singleton, List.singleton_append,
        List.find?_cons]
      by_cases hlt : i < chunk.bytes.length
      · simp [hlt]
      · simp [hlt]

theorem ReceiveBuffer.decode (buffer : ReceiveBuffer) :
    ∃ stk, Stock.decode buffer.bytes = some stk ∧
      stk.encode = buffer.bytes.take 20 := by
  have hlength : 20 ≤ buffer.bytes.length := by
    rw [buffer.length_bytes]
    decide
  obtain ⟨stk, hdecode, hbytes⟩ := Stock.decode_of_length hlength
  refine ⟨stk, hdecode, ?_⟩
  rw [hbytes, List.take_left' (Stock.encode_length stk)]

/-! ## What is decoded -/

/-- One turn of the receive loop. -/
theorem whileReceived_received
    {n : ℕ} {buffer : ReceiveBuffer} {chunk : Chunk} {stk : Stock}
    (hdecode : Stock.decode (buffer.write chunk).bytes = some stk)
    {results : List RecvResult} {decoded : List Stock}
    (hlater : whileReceived chunk.bytes.length (buffer.write chunk) results =
      ⟨decoded, .closed⟩) :
    whileReceived (n + 1) buffer (.received chunk :: results) =
      ⟨stk :: decoded, .closed⟩ := by
  rw [whileReceived]
  simp only [hdecode, hlater]

theorem whileReceived_recvResults
    {chunks : List Chunk} (hnonempty : ∀ chunk ∈ chunks, chunk.bytes ≠ [])
    (n : ℕ) (buffer : ReceiveBuffer) :
    ∃ decoded, whileReceived (n + 1) buffer (recvResults chunks) =
        ⟨decoded, .closed⟩ ∧
      decoded.length = chunks.length + 1 ∧
      ∀ k st, decoded[k]? = some st →
        st.encode = (buffer.after (chunks.take (k + 1))).bytes.take 20 := by
  induction chunks generalizing buffer n with
  | nil =>
      obtain ⟨stk, hdecode, hencode⟩ :=
        (buffer.write ⟨[], Nat.zero_le _⟩).decode
      refine ⟨[stk], whileReceived_received hdecode rfl, rfl, ?_⟩
      intro k st hst
      rw [List.getElem?_singleton] at hst
      split_ifs at hst
      rw [Option.some.injEq] at hst
      rw [← hst, hencode, List.take_nil]
      rfl
  | cons chunk rest ih =>
      rw [List.forall_mem_cons] at hnonempty
      obtain ⟨stk, hdecode, hencode⟩ := (buffer.write chunk).decode
      obtain ⟨n', hn'⟩ := Nat.exists_eq_succ_of_ne_zero
        (mt List.length_eq_zero_iff.mp hnonempty.1)
      obtain ⟨decoded, hlater, hlength, hbuffers⟩ :=
        ih hnonempty.2 n' (buffer.write chunk)
      rw [← Nat.succ_eq_add_one, ← hn'] at hlater
      refine ⟨stk :: decoded, whileReceived_received hdecode hlater, ?_, ?_⟩
      · rw [List.length_cons, List.length_cons, hlength]
      · intro k st hst
        cases k with
        | zero =>
            rw [List.getElem?_cons_zero, Option.some.injEq] at hst
            rw [← hst, hencode]
            rfl
        | succ k =>
            rw [List.getElem?_cons_succ] at hst
            exact hbuffers k st hst

/-- The stocks decoded for a cutting: one for each chunk, and stock `k` from
the buffer after `k + 2` chunks, or after all of them. -/
theorem handleClient_recvResults
    {chunks : List Chunk} (hnonempty : ∀ chunk ∈ chunks, chunk.bytes ≠ [])
    (buffer : ReceiveBuffer) :
    ∃ decoded, handleClient buffer (recvResults chunks) =
        ⟨decoded, .closed⟩ ∧
      decoded.length = chunks.length ∧
      ∀ k st, decoded[k]? = some st →
        st.encode = (buffer.after (chunks.take (k + 2))).bytes.take 20 := by
  cases chunks with
  | nil => exact ⟨[], rfl, rfl, fun k st hst => by cases hst⟩
  | cons chunk rest =>
      rw [List.forall_mem_cons] at hnonempty
      obtain ⟨n, hn⟩ := Nat.exists_eq_succ_of_ne_zero
        (mt List.length_eq_zero_iff.mp hnonempty.1)
      obtain ⟨decoded, hrun, hlength, hbuffers⟩ :=
        whileReceived_recvResults hnonempty.2 n (buffer.write chunk)
      rw [← Nat.succ_eq_add_one, ← hn] at hrun
      exact ⟨decoded, hrun, hlength, hbuffers⟩

/-! ## Framing -/

theorem Stock.encode_injective : Function.Injective Stock.encode := by
  intro st st' hencode
  have hdecode := congrArg Stock.decodeBuffer hencode
  rw [Stock.decodeBuffer_encode, Stock.decodeBuffer_encode,
    Option.some.injEq] at hdecode
  exact hdecode

/-- There are as many chunks as stocks, and byte `i` of stock `k` is the last
one received at offset `i` when stock `k` is decoded. -/
def FramedBy (buffer : ReceiveBuffer) (chunks : List Chunk)
    (sent : List Stock) : Prop :=
  chunks.length = sent.length ∧
    ∀ k st, sent[k]? = some st → ∀ i < 20,
      st.encode[i]? = lastReceived buffer (chunks.take (k + 2)) i

theorem encode_eq_take_iff (st : Stock) (bytes : List UInt8) :
    st.encode = bytes.take 20 ↔ ∀ i < 20, st.encode[i]? = bytes[i]? := by
  constructor
  · intro hencode i hi
    rw [hencode, List.getElem?_take_of_lt hi]
  · intro hbytes
    apply List.ext_getElem?
    intro i
    rcases lt_or_ge i 20 with hlt | hge
    · rw [hbytes i hlt, List.getElem?_take_of_lt hlt]
    · rw [List.getElem?_take_eq_none hge, List.getElem?_eq_none_iff,
        Stock.encode_length]
      exact hge

theorem handleClient_framedBy_iff
    {chunks : List Chunk} (hnonempty : ∀ chunk ∈ chunks, chunk.bytes ≠ [])
    (buffer : ReceiveBuffer) (sent : List Stock) :
    handleClient buffer (recvResults chunks) = ⟨sent, .closed⟩ ↔
      FramedBy buffer chunks sent := by
  obtain ⟨decoded, hrun, hlength, hbuffers⟩ :=
    handleClient_recvResults hnonempty buffer
  have hbytes : ∀ k st, decoded[k]? = some st → ∀ i < 20,
      st.encode[i]? = lastReceived buffer (chunks.take (k + 2)) i := by
    intro k st hst i hi
    rw [← ReceiveBuffer.getElem?_after]
    exact (encode_eq_take_iff st _).mp (hbuffers k st hst) i hi
  rw [hrun]
  constructor
  · intro heq
    cases heq
    exact ⟨hlength.symm, hbytes⟩
  · rintro ⟨hcount, hsent⟩
    have hsame : decoded = sent := by
      apply List.ext_getElem (hlength.trans hcount)
      intro k hk hk'
      have hdecoded := hbuffers k _ (List.getElem?_eq_getElem hk)
      have hbuffer := (encode_eq_take_iff sent[k]
        (buffer.after (chunks.take (k + 2))).bytes).mpr fun i hi => by
          rw [ReceiveBuffer.getElem?_after]
          exact hsent k _ (List.getElem?_eq_getElem hk') i hi
      exact Stock.encode_injective (hdecoded.trans hbuffer.symm)
    rw [hsame]

theorem length_tcpStream (sent : List Stock) :
    (tcpStream sent).length = sent.length * 20 :=
  length_flatMap_encode sent

theorem length_singleton_le (byte : UInt8) : [byte].length ≤ buffSize := by
  rw [List.length_singleton]
  decide

/-- One byte at a time. -/
def byteChunks (stream : List UInt8) : List Chunk :=
  stream.map fun byte => ⟨[byte], length_singleton_le byte⟩

theorem byteChunks_isCutting (stream : List UInt8) :
    IsCutting stream (byteChunks stream) where
  whole := by simp [byteChunks, List.flatMap_map]
  nonempty := by simp [byteChunks]

def zeroBuffer : ReceiveBuffer where
  bytes := List.replicate buffSize 0
  length_bytes := List.length_replicate

/-- The stocks decoded from a cutting of their stream are the stocks sent if
and only if the cutting frames them.  No list of stocks but the empty one is
framed by all cuttings. -/
theorem handleClient_receives_sent_iff (sent : List Stock) :
    (∀ (buffer : ReceiveBuffer) (chunks : List Chunk),
        IsCutting (tcpStream sent) chunks →
          (handleClient buffer (recvResults chunks) = ⟨sent, .closed⟩ ↔
            FramedBy buffer chunks sent)) ∧
      ((∀ (buffer : ReceiveBuffer) (chunks : List Chunk),
          IsCutting (tcpStream sent) chunks →
            handleClient buffer (recvResults chunks) = ⟨sent, .closed⟩) ↔
        sent = []) := by
  refine ⟨fun buffer chunks hcut =>
    handleClient_framedBy_iff hcut.nonempty buffer sent, ?_, ?_⟩
  · intro hall
    have hcut := byteChunks_isCutting (tcpStream sent)
    have hcount := ((handleClient_framedBy_iff hcut.nonempty zeroBuffer
      sent).mp (hall zeroBuffer _ hcut)).1
    rw [byteChunks, List.length_map, length_tcpStream] at hcount
    apply List.length_eq_zero_iff.mp
    omega
  · rintro rfl buffer chunks hcut
    cases chunks with
    | nil => rfl
    | cons chunk rest =>
        have hwhole := hcut.whole
        rw [List.flatMap_cons] at hwhole
        exact absurd (List.append_eq_nil_iff.mp hwhole).1
          (hcut.nonempty chunk List.mem_cons_self)

/-- One stock at a time. -/
def recordChunk (stk : Stock) : Chunk where
  bytes := stk.encode
  length_le := by
    rw [Stock.encode_length]
    decide

theorem recordChunks_isCutting (sent : List Stock) :
    IsCutting (tcpStream sent) (sent.map recordChunk) where
  whole := by
    rw [List.flatMap_map]
    rfl
  nonempty := by
    intro chunk hchunk
    obtain ⟨stk, _, rfl⟩ := List.mem_map.mp hchunk
    exact List.cons_ne_nil _ _

/-- Two equal stocks in two results. -/
theorem handleClient_receives_twice :
    let sent : List Stock := [⟨1, 2, 3, 4, 5⟩, ⟨1, 2, 3, 4, 5⟩]
    IsCutting (tcpStream sent) (sent.map recordChunk) ∧
      FramedBy zeroBuffer (sent.map recordChunk) sent ∧
      handleClient zeroBuffer (recvResults (sent.map recordChunk)) =
        ⟨sent, .closed⟩ := by
  intro sent
  have hcut := recordChunks_isCutting sent
  have hframed : FramedBy zeroBuffer (sent.map recordChunk) sent := by
    refine ⟨rfl, ?_⟩
    intro k st hst i hi
    have hequal : st = ⟨1, 2, 3, 4, 5⟩ := by
      have hmem := List.mem_of_getElem? hst
      simpa [sent] using hmem
    have hk : k < 2 := (List.getElem?_eq_some_iff.mp hst).1
    subst hequal
    interval_cases k <;> interval_cases i <;> rfl
  exact ⟨hcut, hframed,
    ((handleClient_receives_sent_iff sent).1 zeroBuffer _ hcut).mpr hframed⟩

/-- With one stock in each result of `recv`, the first stock is lost and the
last one is decoded twice. -/
theorem handleClient_loses_first :
    let sent : List Stock := [⟨1, 10, 11, 12, 9⟩, ⟨2, 20, 21, 22, 19⟩]
    IsCutting (tcpStream sent) (sent.map recordChunk) ∧
      handleClient zeroBuffer (recvResults (sent.map recordChunk)) =
        ⟨[⟨2, 20, 21, 22, 19⟩, ⟨2, 20, 21, 22, 19⟩], .closed⟩ ∧
      handleClient zeroBuffer (recvResults (sent.map recordChunk)) ≠
        ⟨sent, .closed⟩ := by
  intro sent
  have hrun : handleClient zeroBuffer (recvResults (sent.map recordChunk)) =
      ⟨[⟨2, 20, 21, 22, 19⟩, ⟨2, 20, 21, 22, 19⟩], .closed⟩ := by
    decide
  refine ⟨recordChunks_isCutting sent, hrun, ?_⟩
  rw [hrun]
  decide

end StockFeed
