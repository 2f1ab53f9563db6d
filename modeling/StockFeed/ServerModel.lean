import StockFeed.Datagram
import StockFeed.StateAction
import Mathlib.Data.List.DropRight

/-!
# The server: state, price windows and the record loop

The globals of `server/main.cpp` become the fields of `Server`, and the code
which runs over them becomes actions of `ServerM`: an action ends normally or
with a `Fault`, and keeps the state it has reached in both cases.  A fault
stands for undefined behaviour of the source: a read of memory which is not
there, or `pop_front` on an empty deque.

The state also carries `trace`, the visible history of the run: which records
were stored and counted, when "server get all" was printed, and when
`coefficient` was called and on which map.  `coefficient` itself is an event
that returns control.
-/

namespace StockFeed

abbrev StockPriceMap := OrderedMap Int32 (List Int32)

inductive Action
  | applied (loop_id : Int32) (st : Stock)
  | serverGetAll
  | coefficient (loop_id : Int32) (data : StockPriceMap)
  deriving DecidableEq

/-- The calls of `coefficient` in a trace, with the loop that triggered each
and its argument. -/
def coefficientCalls (trace : List Action) : List (Int32 × StockPriceMap) :=
  trace.filterMap fun action =>
    match action with
    | .coefficient loop_id data => some (loop_id, data)
    | _ => none

inductive Fault
  | outOfRange
  | emptyDeque
  deriving DecidableEq, Repr

@[ext] structure Server where
  g_last_loop : Int32
  g_last_done_loop : Int32
  g_pFile : List UInt8
  g_ready : Bool
  g_priceMap : StockPriceMap
  g_current_stocks : ℕ
  trace : List Action
  deriving DecidableEq

abbrev ServerM := EStateM Fault Server

namespace Server

/-- The prices kept for an id; an id which is not a key has none. -/
def deque (s : Server) (id : Int32) : List Int32 :=
  (s.g_priceMap.find? id).getD []

end Server

/-- The loop in `main` which creates the windows. -/
def initialPriceMap (cfg : Config) : StockPriceMap :=
  (List.range cfg.serverStock).foldl
    (fun data i => data.upsert (Int32.ofNat i) fun _ => []) .empty

/-- The globals when `pcapServer` is entered: their static initialisers, the
freshly truncated `stocks.db` and the empty windows. -/
def Server.initial (cfg : Config) : Server where
  g_last_loop := -1
  g_last_done_loop := -1
  g_pFile := []
  g_ready := false
  g_priceMap := initialPriceMap cfg
  g_current_stocks := 0
  trace := []

/-! ## allPriceOK -/

def popFront : List Int32 → Option (List Int32)
  | [] => none
  | _ :: rest => some rest

def popFrontTimes : ℕ → List Int32 → Option (List Int32)
  | 0, prices => some prices
  | n + 1, prices => popFront prices >>= popFrontTimes n

/-- `int size = s->second.size()`: the length reduced to 32 signed bits. -/
def sizeInt (prices : List Int32) : ℤ :=
  Int.bmod prices.length (2 ^ 32)

/-- One turn of the loop of `allPriceOK`. -/
def trimOrStop (cfg : Config) (prices : List Int32) :
    Option (ForInStep (List Int32)) :=
  let size := sizeInt prices
  if (cfg.priceListSize : ℤ) < size then
    (popFrontTimes (size - cfg.priceListSize).toNat prices).map .yield
  else if size < cfg.priceListSize then
    some (.done prices)
  else
    some (.yield prices)

def allPriceOK (cfg : Config) : ServerM Bool := do
  let s ← get
  if s.g_ready then
    return true
  match s.g_priceMap.visit (trimOrStop cfg) with
  | none => throw .emptyDeque
  | some (data, false) =>
      set { s with g_priceMap := data }
      return false
  | some (data, true) =>
      set { s with g_priceMap := data, g_ready := true }
      return true

/-! ## The record loop of my_callback -/

/-- `g_priceMap[id].pop_front()`. -/
def popFrontAt (id : Int32) : ServerM Unit := do
  let s ← get
  match popFront (s.deque id) with
  | none => throw .emptyDeque
  | some rest => set { s with g_priceMap := s.g_priceMap.upsert id fun _ => rest }

/-- `g_priceMap[id].push_back(st.close_price_); ++g_current_stocks`. -/
def pushBack (loop_id : Int32) (st : Stock) : ServerM Unit :=
  modify fun s => { s with
    g_priceMap := s.g_priceMap.upsert st.id_ fun prices =>
      prices.getD [] ++ [st.close_price_]
    g_current_stocks := s.g_current_stocks + 1
    trace := s.trace ++ [.applied loop_id st] }

/-- Lines 199-204: make room if the windows are full, store and count. -/
def storeRecord (cfg : Config) (loop_id : Int32) (st : Stock) :
    ServerM Unit := do
  if ← allPriceOK cfg then
    popFrontAt st.id_
  pushBack loop_id st

/-- Lines 206-212: the counter has reached `SERVER_STOCK`. -/
def getAll (cfg : Config) (loop_id : Int32) : ServerM Unit := do
  modify fun s => { s with trace := s.trace ++ [.serverGetAll] }
  if ← allPriceOK cfg then
    modify fun s => { s with
      g_last_loop := -1
      g_last_done_loop := loop_id
      trace := s.trace ++ [.coefficient loop_id s.g_priceMap] }
  modify fun s => { s with g_current_stocks := 0 }

/-- Body of the decode loop after `st.decode(packet)`. -/
def processRecord (cfg : Config) (loop_id : Int32) (st : Stock) :
    ServerM Unit := do
  if ((← get).g_priceMap.find? st.id_).isSome then
    storeRecord cfg loop_id st
    if (← get).g_current_stocks = cfg.serverStock then
      getAll cfg loop_id

/-- The done-loop test and `g_last_loop`; `body` is the decode loop. -/
def unlessDone (loop_id : Int32) (body : ServerM Unit) : ServerM Unit := do
  let s ← get
  if s.g_last_done_loop = loop_id then
    return
  if loop_id ≠ s.g_last_loop then
    set { s with g_last_loop := loop_id }
  body

/-- `my_callback` from the done-loop test on, on a decoded payload. -/
def processPayload (cfg : Config) (payload : Payload) : ServerM Unit :=
  unlessDone payload.loop_id
    (forM payload.records (processRecord cfg payload.loop_id))

def runPayloads (cfg : Config) (payloads : List Payload) :
    EStateM.Result Fault Server Unit :=
  forM payloads (processPayload cfg) (Server.initial cfg)

end StockFeed
