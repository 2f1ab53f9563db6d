import StockFeed.OrderedMap
import Mathlib.Tactic.IntervalCases
import Mathlib.Tactic.NormNum

/-!
# The shared header: constants, the stock record and its byte codec

Everything `common/global.h` gives to both programs.  The compile-time
constants are the fields of `Config`, together with the relations between
them which the two programs rely on; `Config.shipped` has the values of the
header.  C's `int` is `Int32`, `unsigned char` is `UInt8`, and a narrowing
conversion keeps the low bits.
-/

namespace StockFeed

/-! ## Constants -/

/-- The preprocessor constants, all positive `int` literals.  The last field
says that the groups a client sends in one loop cover every tracked id. -/
structure Config where
  stockCount : ℕ
  groupStock : ℕ
  loopCount : ℕ
  serverStock : ℕ
  priceListSize : ℕ
  groupStock_pos : 0 < groupStock
  serverStock_pos : 0 < serverStock
  priceListSize_pos : 0 < priceListSize
  stockCount_lt : stockCount < 2 ^ 31
  priceListSize_lt : priceListSize < 2 ^ 31
  payloadSize_lt : groupStock * 20 + 4 < 2 ^ 31
  tracked_sent : serverStock ≤ stockCount / groupStock * groupStock

namespace Config

/-- The values `global.h` defines. -/
def shipped : Config where
  stockCount := 10000
  groupStock := 20
  loopCount := 100
  serverStock := 400
  priceListSize := 4096
  groupStock_pos := by decide
  serverStock_pos := by decide
  priceListSize_pos := by decide
  stockCount_lt := by decide
  priceListSize_lt := by decide
  payloadSize_lt := by decide
  tracked_sent := by decide

def pair : Config where
  stockCount := 2
  groupStock := 1
  loopCount := 100
  serverStock := 2
  priceListSize := 1
  groupStock_pos := by decide
  serverStock_pos := by decide
  priceListSize_pos := by decide
  stockCount_lt := by decide
  priceListSize_lt := by decide
  payloadSize_lt := by decide
  tracked_sent := by decide

def trio : Config where
  stockCount := 3
  groupStock := 1
  loopCount := 100
  serverStock := 3
  priceListSize := 4
  groupStock_pos := by decide
  serverStock_pos := by decide
  priceListSize_pos := by decide
  stockCount_lt := by decide
  priceListSize_lt := by decide
  payloadSize_lt := by decide
  tracked_sent := by decide

/-- `SERVER_STOCK_COUNT`, written `500*LOOP_COUNT/4`. -/
def serverStockCount (cfg : Config) : ℕ :=
  500 * cfg.loopCount / 4

/-- `STOCK_COUNT/GROUP_STOCK`: datagrams the client sends in one loop. -/
def groupCount (cfg : Config) : ℕ :=
  cfg.stockCount / cfg.groupStock

/-- Size in bytes of one datagram payload: the loop id and the records. -/
def payloadSize (cfg : Config) : ℕ :=
  cfg.groupStock * 20 + 4

theorem groupCount_mul_le (cfg : Config) :
    cfg.groupCount * cfg.groupStock ≤ cfg.stockCount :=
  Nat.div_mul_le_self _ _

theorem serverStock_lt (cfg : Config) : cfg.serverStock < 2 ^ 31 :=
  (cfg.tracked_sent.trans cfg.groupCount_mul_le).trans_lt cfg.stockCount_lt

end Config

/-! ## Machine integers -/

/-- The signed order of `int`, in which `map<int, ...>` is iterated. -/
instance linearOrderInt32 : LinearOrder Int32 where
  le_refl := Int32.le_refl
  le_trans := fun _ _ _ => Int32.le_trans
  le_antisymm := fun _ _ => Int32.le_antisymm
  le_total := Int32.le_total
  lt_iff_le_not_ge := fun _ _ => Std.lt_iff_le_and_not_ge
  toDecidableLE := inferInstance
  toDecidableLT := inferInstance
  toDecidableEq := inferInstance

/-- Narrowing of an `int` to `char`, stored into an `unsigned char`. -/
def charOf (val : Int32) : UInt8 :=
  val.toInt8.toUInt8

/-- Integral promotion of an `unsigned char`. -/
def promote (byte : UInt8) : Int32 :=
  byte.toUInt32.toInt32

/-- `b0 << 24 | b1 << 16 | b2 << 8 | b3` on promoted bytes. -/
def intOfBytes (b0 b1 b2 b3 : UInt8) : Int32 :=
  promote b0 <<< 24 ||| promote b1 <<< 16 ||| promote b2 <<< 8 ||| promote b3

theorem intOfBytes_charOf (val : Int32) :
    intOfBytes (charOf (val >>> 24)) (charOf (val >>> 16))
      (charOf (val >>> 8)) (charOf val) = val := by
  apply Int32.toBitVec_inj.1
  apply BitVec.eq_of_getLsbD_eq
  intro i hi
  simp only [charOf, intOfBytes, promote]
  interval_cases i <;>
    simp [BitVec.getElem_signExtend, BitVec.getElem_sshiftRight]

/-! ## The stock record -/

/-- `class stock`.  `time_` is never read, and `buffer_` with its cursor
`current_` only lives inside `encode` and `decode`. -/
@[ext] structure Stock where
  id_ : Int32
  open_price_ : Int32
  close_price_ : Int32
  max_price_ : Int32
  min_price_ : Int32
  deriving DecidableEq, Repr

namespace Stock

/-- `writeInt`: four `writeByte` calls at the cursor. -/
def writeInt (val : Int32) : List UInt8 :=
  [charOf (val >>> 24), charOf (val >>> 16), charOf (val >>> 8), charOf val]

def encode (stk : Stock) : List UInt8 :=
  writeInt stk.id_ ++ writeInt stk.open_price_ ++ writeInt stk.close_price_ ++
    writeInt stk.max_price_ ++ writeInt stk.min_price_

/-- `readInt`: four bytes at the cursor, which then moves past them. -/
def readInt : StateT (List UInt8) Option Int32
  | b0 :: b1 :: b2 :: b3 :: current => some (intOfBytes b0 b1 b2 b3, current)
  | _ => none

/-- The five reads of `decode`, from the start of the filled `buffer_`. -/
def decodeBuffer (buffer : List UInt8) : Option Stock :=
  StateT.run' (do
    let id ← readInt
    let openPrice ← readInt
    let closePrice ← readInt
    let maxPrice ← readInt
    let minPrice ← readInt
    return ⟨id, openPrice, closePrice, maxPrice, minPrice⟩) buffer

@[simp] theorem writeInt_length (val : Int32) : (writeInt val).length = 4 := rfl

@[simp] theorem encode_length (stk : Stock) : stk.encode.length = 20 := rfl

theorem writeInt_intOfBytes (b0 b1 b2 b3 : UInt8) :
    writeInt (intOfBytes b0 b1 b2 b3) = [b0, b1, b2, b3] := by
  simp only [writeInt, List.cons.injEq, and_true]
  refine ⟨?_, ?_, ?_, ?_⟩
  all_goals
    apply UInt8.toBitVec_inj.1
    apply BitVec.eq_of_getLsbD_eq
    intro i hi
    simp only [charOf, intOfBytes, promote]
    interval_cases i <;>
      simp [BitVec.getElem_signExtend, BitVec.getElem_sshiftRight]

theorem readInt_writeInt (val : Int32) (current : List UInt8) :
    readInt.run (writeInt val ++ current) = some (val, current) := by
  have hvalue := intOfBytes_charOf val
  change some (_, current) = _
  rw [hvalue]

theorem decodeBuffer_encode (stk : Stock) :
    decodeBuffer stk.encode = some stk := by
  have hlast := readInt_writeInt stk.min_price_ []
  rw [List.append_nil] at hlast
  simp [decodeBuffer, encode, StateT.run'_eq, readInt_writeInt, hlast]

theorem decodeBuffer_of_length
    {buffer : List UInt8} (hlength : buffer.length = 20) :
    ∃ stk, decodeBuffer buffer = some stk ∧ stk.encode = buffer := by
  match buffer, hlength with
  | [a0, a1, a2, a3, b0, b1, b2, b3, c0, c1, c2, c3, d0, d1, d2, d3,
      e0, e1, e2, e3], _ =>
      refine ⟨⟨intOfBytes a0 a1 a2 a3, intOfBytes b0 b1 b2 b3,
        intOfBytes c0 c1 c2 c3, intOfBytes d0 d1 d2 d3,
        intOfBytes e0 e1 e2 e3⟩, rfl, ?_⟩
      simp [encode, writeInt_intOfBytes]

end Stock
end StockFeed
