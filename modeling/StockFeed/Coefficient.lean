import StockFeed.Kernel
import StockFeed.ServerModel
import Mathlib.Algebra.Order.Field.Basic

/-!
# The compute stage

The host side of `server/coefficient.cu`: windows are converted and copied to
the device, `coefficient_single` runs five launches through one scratch buffer
and combines their totals, and `coefficient` looks for the pair with the
smallest absolute value.

A `Device` has the allocations ever made, in order, so that a pointer is the
number of its allocation; a freed one has no content.  The state also keeps
the device operations and the printed result.

`float` is any type `K` with the operations of the source, and a `HostFloat`
has what the host makes of a pair.  `HostFloat.exact` reads floats as exact
numbers of an ordered field, with `none` for NaN and infinity, which are never
below a bound; `coefficientSingle`, `pairSearch` and `coefficient` are the
functions of the source in that reading.
-/

namespace StockFeed

open StateAction

/-- What uninitialised memory holds. -/
structure Junk (K : Type) where
  cell : K
  pointer : ℕ

/-! ## The device -/

inductive DeviceOp
  | cudaMalloc (p : ℕ)
  | cudaFree (p : ℕ)
  deriving DecidableEq, Repr

/-- State of the pair search: `min_cof`, and `stock_x` and `stock_y` once they
have been assigned. -/
structure Search (K : Type) where
  min_cof : K
  stocks : Option (ℕ × ℕ)

structure Device (K : Type) where
  memory : List (Option (List K))
  ops : List DeviceOp
  printed : Option (Search K)

def Device.initial (K : Type) : Device K := ⟨[], [], none⟩

abbrev DeviceM (K : Type) := EStateM Halt (Device K)

section Operations

variable {K : Type}

def liftChecked {α : Type} : Checked α → DeviceM K α
  | .ok a => pure a
  | .error e => throw e

def cudaMalloc (junk : Junk K) (n : ℕ) : DeviceM K ℕ :=
  modifyGet fun device => (device.memory.length, { device with
    memory := device.memory ++ [some (List.replicate n junk.cell)]
    ops := device.ops ++ [.cudaMalloc device.memory.length] })

def cudaFree (p : ℕ) : DeviceM K Unit :=
  modify fun device => { device with
    memory := device.memory.set p none
    ops := device.ops ++ [.cudaFree p] }

/-- The array behind a device pointer. -/
def deviceArray (p : ℕ) : DeviceM K (List K) := do
  match (← get).memory[p]? with
  | some (some array) => return array
  | _ => throw .outOfRange

def setDeviceArray (p : ℕ) (array : List K) : DeviceM K Unit :=
  modify fun device => { device with memory := device.memory.set p (some array) }

/-- `n` floats over the start of an array. -/
def copyOver (n : ℕ) (source target : List K) : Checked (List K) :=
  if n ≤ source.length ∧ n ≤ target.length then
    .ok (source.take n ++ target.drop n)
  else .error .outOfRange

def cudaMemcpyHostToDevice (p : ℕ) (host : List K) (n : ℕ) :
    DeviceM K Unit := do
  let array ← liftChecked (copyOver n host (← deviceArray p))
  setDeviceArray p array

def cudaMemcpyDeviceToHost (host : List K) (p n : ℕ) : DeviceM K (List K) := do
  liftChecked (copyOver n (← deviceArray p) host)

end Operations

/-! ## coefficient_single -/

section Single

variable {K : Type}

/-- What the kernels do in one launch, as functions of the arrays behind their
arguments. -/
structure Kernels (K : Type) where
  dot : List K → List K → List K → Checked (List K)
  sum : List K → List K → Checked (List K)

/-- The five launches of one call, in the order of the source. -/
structure Launches (K : Type) where
  dot : Kernels K
  sum_x : Kernels K
  sum_y : Kernels K
  sum_y_2 : Kernels K
  sum_x_2 : Kernels K

structure Sums (K : Type) where
  dot : K
  sum_x : K
  sum_y : K
  sum_y_2 : K
  sum_x_2 : K

section Launching

variable [Zero K] [Add K]

def Kernels.scheduled
    [Mul K] (cfg : Config) (launch : Launch K threadNum) : Kernels K where
  dot := StockFeed.dot cfg.priceListSize blockNum threadNum launch
  sum := StockFeed.sum cfg.priceListSize blockNum threadNum launch

/-- A launch into `dev_o`, the copy to `host_o` and the loop over `ii`. -/
def launchTotal (kernel : List K → Checked (List K)) (dev_o : ℕ)
    (host_o : List K) : DeviceM K (List K × K) := do
  let output ← liftChecked (kernel (← deviceArray dev_o))
  setDeviceArray dev_o output
  let host_o ← cudaMemcpyDeviceToHost host_o dev_o blockNum
  let total ← liftChecked ((List.range blockNum).foldlM (fun total ii => do
    let value ← readAt host_o ii
    return total + value) 0)
  return (host_o, total)

def gatherSums (launches : Launches K) (dev_a dev_b dev_o : ℕ)
    (host_o : List K) : DeviceM K (Sums K) := do
  let a ← deviceArray dev_a
  let b ← deviceArray dev_b
  let (host_o, dot) ← launchTotal (launches.dot.dot a b) dev_o host_o
  let (host_o, sum_x) ← launchTotal (launches.sum_x.sum a) dev_o host_o
  let (host_o, sum_y) ← launchTotal (launches.sum_y.sum b) dev_o host_o
  let (host_o, sum_y_2) ← launchTotal (launches.sum_y_2.sum b) dev_o host_o
  let (_, sum_x_2) ← launchTotal (launches.sum_x_2.sum a) dev_o host_o
  return ⟨dot, sum_x, sum_y, sum_y_2, sum_x_2⟩

end Launching

namespace Sums

variable [Sub K] [Mul K] [Div K] [NatCast K]

def fenzi (cfg : Config) (sums : Sums K) : K :=
  (sums.dot - sums.sum_x * sums.sum_y) / cfg.priceListSize

/-- The argument of `sqrt` in `fenmu`. -/
def radicand (cfg : Config) (sums : Sums K) : K :=
  (sums.sum_x_2 - sums.sum_x * sums.sum_x / cfg.priceListSize) *
    (sums.sum_y_2 - sums.sum_y * sums.sum_y / cfg.priceListSize)

end Sums

/-- What the host computes for a pair: `fenzi/fenmu` of its totals, and from it
the next state of the search. -/
structure HostFloat (K V : Type) where
  quotient : Sums K → V
  consider : ℕ → ℕ → V → Search K → Search K

def coefficientSingleWith
    [Zero K] [Add K] {V : Type} (host : HostFloat K V) (junk : Junk K)
    (launches : Launches K) (dev_a dev_b : ℕ) : DeviceM K V := do
  let dev_o ← cudaMalloc junk blockNum
  let sums ← gatherSums launches dev_a dev_b dev_o
    (List.replicate blockNum junk.cell)
  cudaFree dev_o
  return host.quotient sums

end Single

/-! ## coefficient -/

section Coefficient

variable {K : Type}

section Loading

variable [IntCast K]

/-- The loop over `c`: `a_c[c] = q_a[c]`. -/
def convertWindow (cfg : Config) (junk : Junk K) (q_a : List Int32) :
    Checked (List K) :=
  (List.range cfg.priceListSize).foldlM (fun a_c c => do
    let price ← readAt q_a c
    writeAt a_c c (price.toInt : K)) (List.replicate cfg.priceListSize junk.cell)

/-- Body of the first loop over `i`.  A missing key would be created with an
empty deque. -/
def loadWindow (cfg : Config) (junk : Junk K) (data : StockPriceMap)
    (array : List ℕ) (i : ℕ) : DeviceM K (List ℕ) := do
  let a_c ← liftChecked
    (convertWindow cfg junk ((data.find? (Int32.ofNat i)).getD []))
  let p ← cudaMalloc junk cfg.priceListSize
  let array ← liftChecked (writeAt array i p)
  cudaMemcpyHostToDevice (← liftChecked (readAt array i)) a_c cfg.priceListSize
  return array

end Loading

variable [Zero K] [One K] [Add K] {V : Type}

/-- The double loop over `i` and `j`; `launches i j` are the launches for one
pair. -/
def pairSearchWith (host : HostFloat K V) (junk : Junk K)
    (launches : ℕ → ℕ → Launches K) (loop : ℕ) (array : List ℕ) :
    DeviceM K (Search K) :=
  (List.range loop).foldlM (fun search i =>
    (List.range' (i + 1) (loop - (i + 1))).foldlM (fun search j => do
      let dev_a ← liftChecked (readAt array i)
      let dev_b ← liftChecked (readAt array j)
      let val ← coefficientSingleWith host junk (launches i j) dev_a dev_b
      return host.consider i j val search) search) ⟨1, none⟩

/-- The function ends the process: it never returns. -/
def coefficientWith
    [IntCast K] (host : HostFloat K V) (cfg : Config) (junk : Junk K)
    (launches : ℕ → ℕ → Launches K) (data : StockPriceMap) :
    DeviceM K Unit := do
  let array ← (List.range cfg.serverStock).foldlM (loadWindow cfg junk data)
    (List.replicate cfg.serverStock junk.pointer)
  let search ← pairSearchWith host junk launches cfg.serverStock array
  modify fun device => { device with printed := some search }
  forM (List.range cfg.serverStock) fun _ => do
    cudaFree (← liftChecked (readAt array cfg.serverStock))
  throw .abort

end Coefficient

/-! ## Exact arithmetic -/

section Exact

/-- `sqrt`, which is not defined below zero. -/
structure SquareRoot (K : Type) [Field K] [LinearOrder K] where
  root : K → Option K
  root_neg : ∀ x < 0, root x = none
  root_nonneg : ∀ x, 0 ≤ x → ∃ r, root x = some r ∧ 0 ≤ r ∧ r * r = x

variable {K : Type} [Field K] [LinearOrder K]

/-- `fenzi/fenmu`. -/
def Sums.quotient (cfg : Config) (sqrt : SquareRoot K) (sums : Sums K) :
    Option K :=
  match sqrt.root (sums.radicand cfg) with
  | none => none
  | some fenmu => if fenmu = 0 then none else some (sums.fenzi cfg / fenmu)

/-- `if((val)<min_cof)` after `val = fabs(val)`; NaN compares false. -/
def Search.consider (i j : ℕ) (val : Option K) (search : Search K) :
    Search K :=
  match val with
  | none => search
  | some val =>
      if |val| < search.min_cof then ⟨|val|, some (i, j)⟩ else search

def HostFloat.exact (cfg : Config) (sqrt : SquareRoot K) :
    HostFloat K (Option K) where
  quotient := Sums.quotient cfg sqrt
  consider := Search.consider

def coefficientSingle (cfg : Config) (sqrt : SquareRoot K) (junk : Junk K)
    (launches : Launches K) (dev_a dev_b : ℕ) : DeviceM K (Option K) :=
  coefficientSingleWith (.exact cfg sqrt) junk launches dev_a dev_b

def pairSearch (cfg : Config) (sqrt : SquareRoot K) (junk : Junk K)
    (launches : ℕ → ℕ → Launches K) (loop : ℕ) (array : List ℕ) :
    DeviceM K (Search K) :=
  pairSearchWith (.exact cfg sqrt) junk launches loop array

def coefficient (cfg : Config) (sqrt : SquareRoot K) (junk : Junk K)
    (launches : ℕ → ℕ → Launches K) (data : StockPriceMap) :
    DeviceM K Unit :=
  coefficientWith (.exact cfg sqrt) cfg junk launches data

end Exact

end StockFeed
