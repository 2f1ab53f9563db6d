import StockFeed.ServerModel

/-!
# The capture callback

`my_callback` receives a captured frame and a pointer to its bytes, peels off
the Ethernet, IP and UDP headers behind four length checks, and handles what
is left as a datagram.  The lengths are kept in an `int` and compared with
`sizeof` values and with an `unsigned int`; the comparisons below convert the
way C does.  Subtractions are two's complement.

`caplen` is what the capture library reports, `packet` the memory which may be
read.  For a `CapturedFrame` they agree; nothing in the callback itself
depends on that.
-/

namespace StockFeed

open StateAction

structure Timeval where
  tv_sec : Int64
  tv_usec : Int64
  deriving DecidableEq, Repr

/-- `struct pcap_pkthdr` and `packet`.  `len` is never read. -/
structure Frame where
  ts : Timeval
  caplen : UInt32
  packet : Packet
  deriving DecidableEq, Repr

/-- A frame with exactly `caplen` bytes behind the pointer. -/
structure CapturedFrame extends Frame where
  available : packet.length = caplen.toNat

/-! ## Diagnostics -/

/-- `%06d`. -/
def formatPadded (n : Int32) : String :=
  if n < 0 then
    "-" ++ "".pushn '0' (5 - (toString n.toInt.natAbs).length) ++
      toString n.toInt.natAbs
  else
    "".pushn '0' (6 - (toString n.toInt.natAbs).length) ++
      toString n.toInt.natAbs

def timestampString (ts : Timeval) : String :=
  toString ts.tv_sec.toInt32.toInt ++ "." ++ formatPadded ts.tv_usec.toInt32

def problemPkt (ts : Timeval) (reason : String) : String :=
  timestampString ts ++ ": " ++ reason ++ "\n"

def tooShort (ts : Timeval) (truncatedHdr : String) : String :=
  "packet with timestamp " ++ timestampString ts ++
    " is truncated and lacks a full " ++ truncatedHdr ++ "\n"

/-! ## Header checks -/

/-- Conversion of an `int` to `size_t`. -/
def sizeT (n : Int32) : UInt64 :=
  UInt64.ofInt n.toInt

/-- `ip->ip_hl * 4`, from the first byte of the IP header. -/
def ipHeaderLength (first : UInt8) : UInt32 :=
  (first &&& 15).toUInt32 * 4

/-- Outcome of the header checks: a line for `stderr`, or the payload pointer
and `capture_len-size`. -/
abbrev HeaderResult := Except String (Packet × Int32)

def skipUdpHeader (ts : Timeval) (packet : Packet) (capture_len : Int32) :
    HeaderResult :=
  if sizeT capture_len < 8 then
    .error (tooShort ts "UDP header")
  else
    .ok (packet.drop 8, capture_len - 8)

/-- The outer `none` is a read of memory which is not there. -/
def skipIpHeader (ts : Timeval) (packet : Packet) (capture_len : Int32) :
    Option HeaderResult :=
  if sizeT capture_len < 20 then
    some (.error (tooShort ts "IP header"))
  else do
    let first ← packet[0]?
    if capture_len.toUInt32 < ipHeaderLength first then
      some (.error (tooShort ts "IP header with options"))
    else do
      let ip_p ← packet[9]?
      if ip_p ≠ 17 then
        some (.error (problemPkt ts "non-UDP packet"))
      else
        some (skipUdpHeader ts (packet.drop (ipHeaderLength first).toNat)
          (capture_len - (ipHeaderLength first).toInt32))

def skipHeaders (frame : Frame) : Option HeaderResult :=
  if sizeT frame.caplen.toInt32 < 14 then
    some (.error (tooShort frame.ts "Ethernet header"))
  else
    skipIpHeader frame.ts (frame.packet.drop 14) (frame.caplen.toInt32 - 14)

/-! ## The payload -/

def inRange {α : Type} : Option α → ServerM α
  | some a => pure a
  | none => throw .outOfRange

/-- `fwrite(packet, 1, n, g_pFile)`, storing all bytes. -/
def fwrite (packet : Packet) (n : UInt64) : ServerM Unit := do
  let bytes ← inRange (readBytes n.toNat packet)
  modify fun s => { s with g_pFile := s.g_pFile ++ bytes }

def decodeLoop (cfg : Config) (loop_id : Int32) : ℕ → Packet → ServerM Unit
  | 0, _ => pure ()
  | n + 1, packet => do
      let st ← inRange (Stock.decode packet)
      processRecord cfg loop_id st
      decodeLoop cfg loop_id n (packet.drop 20)

/-- Lines 178-216 of `my_callback`. -/
def handlePayload (cfg : Config) (packet : Packet) (length : Int32) :
    ServerM Unit := do
  let loop_id ← inRange (readLoopId packet)
  fwrite packet (sizeT length)
  unlessDone loop_id (decodeLoop cfg loop_id cfg.groupStock (packet.drop 4))

/-- The whole callback; the result is what it prints to `stderr`. -/
def myCallback (cfg : Config) (frame : Frame) : ServerM (Option String) := do
  match ← inRange (skipHeaders frame) with
  | .error line => return some line
  | .ok (packet, length) =>
      handlePayload cfg packet length
      return none

def deliver (cfg : Config) (frame : Frame) : ServerM Unit := do
  let _ ← myCallback cfg frame

theorem deliver_apply (cfg : Config) (frame : Frame) (s : Server) :
    deliver cfg frame s =
      match skipHeaders frame with
      | none => .error .outOfRange s
      | some (.error _) => .ok () s
      | some (.ok rest) => handlePayload cfg rest.1 rest.2 s := by
  rw [deliver, myCallback]
  cases hheaders : skipHeaders frame with
  | none => rfl
  | some result =>
      cases result with
      | error line => rfl
      | ok rest =>
          simp only [inRange, pure_bind, bind_apply]
          cases hresult : handlePayload cfg rest.1 rest.2 s with
          | ok u s' => rfl
          | error e s' => rfl

def runFrames (cfg : Config) (frames : List Frame) :
    EStateM.Result Fault Server Unit :=
  forM frames (deliver cfg) (Server.initial cfg)

/-- `pcap_loop` hands at most `SERVER_STOCK_COUNT` frames to the callback. -/
def pcapServer (cfg : Config) (frames : List Frame) :
    EStateM.Result Fault Server Unit :=
  runFrames cfg (frames.take cfg.serverStockCount)

end StockFeed
