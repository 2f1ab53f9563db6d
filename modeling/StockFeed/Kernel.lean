import StockFeed.Global
import Mathlib.Algebra.Group.Defs

/-!
# The reduction kernels

`dot`, `sumSquare` and `sum` of `server/coefficient.cu` are one kernel with
three terms: every thread of a block adds up the terms at its stride, stores
the sum in shared memory, and a tree of phases reduces the shared cells to the
one which is written to `output`.  The cells have any type `K` with a zero, a
sum and a product: numbers read exactly, or `float`.

Between two `__syncthreads()` the threads of a block take their turns in the
order a `Schedule` gives; a turn is one execution of the loop body by one
thread.  Reads and writes are checked, and a subscript outside its array ends
the kernel.  Loops carry fuel, and running out of it ends the kernel as well.
-/

namespace StockFeed

/-- What can end a computation of `coefficient.cu` early. -/
inductive Halt
  | outOfRange
  | outOfFuel
  | abort
  deriving DecidableEq, Repr

abbrev Checked := Except Halt

/-! ## Checked subscripts and loops -/

section Subscripts

variable {α : Type}

def readAt (array : List α) (index : ℕ) : Checked α :=
  match array[index]? with
  | some value => .ok value
  | none => .error .outOfRange

def writeAt (array : List α) (index : ℕ) (value : α) : Checked (List α) :=
  if index < array.length then .ok (array.set index value)
  else .error .outOfRange

/-- `array[index]` with an `int` subscript. -/
def readSigned (array : List α) (index : Int32) : Checked α :=
  if index < 0 then .error .outOfRange
  else readAt array index.toNatClampNeg

/-- `while (guard) body`, for at most `fuel` turns. -/
def whileLoop (guard : α → Bool) (body : α → Checked α) :
    ℕ → α → Checked α
  | 0, s => if guard s then .error .outOfFuel else .ok s
  | fuel + 1, s =>
      if guard s then body s >>= whileLoop guard body fuel else .ok s

end Subscripts

/-! ## What a launch leaves open -/

def threadsPerBlock : ℕ := 256

def threadNum : ℕ := 8

def blockNum : ℕ := 1

/-- The constants of `coefficient.cu` next to those of the header.
`ARRAY_LENGTH` is `PRICE_LIST_SIZE`; a thread which steps past the end of an
array is still within `int`. -/
structure DeviceConfig extends Config where
  arrayLength_lt : priceListSize + threadsPerBlock < 2 ^ 31

/-- The order in which the threads of a block take their turns in each phase.
The phase in which `cache` is filled has the number `blockDim`, and the phases
of the tree have the number of their active threads. -/
structure Schedule (blockDim : ℕ) where
  order : ℕ → List ℕ
  perm : ∀ phase, (order phase).Perm (List.range blockDim)

/-- `__shared__ float cache[threadsPerBlock]`, not initialised. -/
structure SharedMemory (K : Type) where
  cells : List K
  length_cells : cells.length = threadsPerBlock

structure Launch (K : Type) (blockDim : ℕ) where
  schedule : ℕ → Schedule blockDim
  shared : ℕ → SharedMemory K

/-! ## The kernels -/

section Kernels

variable {K : Type} [Zero K] [Add K]

/-- One thread: `temp` after the loop over `tid`. -/
def strideSum (arrayLength : ℕ) (stride : Int32) (term : Int32 → Checked K)
    (start : Int32) : Checked K :=
  Prod.snd <$> whileLoop (fun s => s.1 < Int32.ofNat arrayLength)
    (fun s => do
      let value ← term s.1
      return (s.1 + stride, s.2 + value))
    arrayLength (start, 0)

/-- `cache[cacheIndex] = temp` by every thread. -/
def fillCache (arrayLength gridDim blockDim blockIdx : ℕ)
    (term : Int32 → Checked K) (order : List ℕ) (cache : List K) :
    Checked (List K) :=
  order.foldlM (fun cache threadIdx => do
    let temp ← strideSum arrayLength (Int32.ofNat (blockDim * gridDim)) term
      (Int32.ofNat (threadIdx + blockIdx * blockDim))
    writeAt cache threadIdx temp) cache

/-- `if(cacheIndex<i) cache[cacheIndex] += cache[cacheIndex+1]`. -/
def addNeighbour (i : ℕ) (cache : List K) (cacheIndex : ℕ) :
    Checked (List K) :=
  if cacheIndex < i then do
    let here ← readAt cache cacheIndex
    let next ← readAt cache (cacheIndex + 1)
    writeAt cache cacheIndex (here + next)
  else return cache

/-- The loop over `i`, which halves it until it is zero. -/
def reduceCache {blockDim : ℕ} (schedule : Schedule blockDim)
    (cache : List K) : Checked (List K) :=
  Prod.snd <$> whileLoop (fun s => s.1 ≠ 0)
    (fun s => do
      let cache ← (schedule.order s.1).foldlM (addNeighbour s.1) s.2
      return (s.1 / 2, cache))
    blockDim (blockDim / 2, cache)

/-- One block: what its thread 0 writes to `output[blockIdx.x]`. -/
def reduceBlock (arrayLength gridDim blockDim blockIdx : ℕ)
    (term : Int32 → Checked K) (schedule : Schedule blockDim)
    (shared : SharedMemory K) : Checked K := do
  let cache ← fillCache arrayLength gridDim blockDim blockIdx term
    (schedule.order blockDim) shared.cells
  let cache ← reduceCache schedule cache
  readAt cache 0

/-- All blocks.  They share nothing but `output`, each with its own cell. -/
def reduceGrid (arrayLength gridDim blockDim : ℕ)
    (term : Int32 → Checked K) (launch : Launch K blockDim)
    (output : List K) : Checked (List K) :=
  (List.range gridDim).foldlM (fun output blockIdx => do
    let value ← reduceBlock arrayLength gridDim blockDim blockIdx term
      (launch.schedule blockIdx) (launch.shared blockIdx)
    writeAt output blockIdx value) output

variable [Mul K]

def dot (arrayLength gridDim blockDim : ℕ) (launch : Launch K blockDim)
    (input1 input2 output : List K) : Checked (List K) :=
  reduceGrid arrayLength gridDim blockDim (fun tid => do
    let x ← readSigned input1 tid
    let y ← readSigned input2 tid
    return x * y) launch output

def sumSquare (arrayLength gridDim blockDim : ℕ) (launch : Launch K blockDim)
    (input output : List K) : Checked (List K) :=
  reduceGrid arrayLength gridDim blockDim (fun tid => do
    let x ← readSigned input tid
    let y ← readSigned input tid
    return x * y) launch output

def sum (arrayLength gridDim blockDim : ℕ) (launch : Launch K blockDim)
    (input output : List K) : Checked (List K) :=
  reduceGrid arrayLength gridDim blockDim (readSigned input) launch output

end Kernels

end StockFeed
