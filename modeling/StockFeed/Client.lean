import StockFeed.Datagram

/-!
# The UDP client

`udpClient` sends loop after loop; in each loop `stockGenerate` numbers the
stocks from 0 and draws their prices.  The drawn prices are arbitrary here:
`Quotes` gives them for each loop and stock.  Sockets and `usleep` have no
place in the model; what is sent is a list of datagrams.
-/

namespace StockFeed

structure Quote where
  openPrice : Int32
  closePrice : Int32
  maxPrice : Int32
  minPrice : Int32
  deriving DecidableEq, Repr

abbrev Quotes := ℕ → ℕ → Quote

def Quote.stock (quote : Quote) (id : Int32) : Stock :=
  ⟨id, quote.openPrice, quote.closePrice, quote.maxPrice, quote.minPrice⟩

/-- `stockGenerate`, with the static `stock_id` passed along. -/
def stockGenerate (draw : ℕ → Quote) (stock_id : ℕ) : Stock × ℕ :=
  ((draw stock_id).stock (Int32.ofNat stock_id), stock_id + 1)

/-- The stocks of one datagram: the loop over `j`. -/
def generateGroup (draw : ℕ → Quote) : ℕ → ℕ → List Stock × ℕ
  | 0, stock_id => ([], stock_id)
  | n + 1, stock_id =>
      let (stk, stock_id) := stockGenerate draw stock_id
      let (rest, stock_id) := generateGroup draw n stock_id
      (stk :: rest, stock_id)

/-- What goes into the datagrams of one loop: the loop over `i`. -/
def generateLoop (cfg : Config) (quotes : Quotes) (lc : ℕ) :
    ℕ → ℕ → List Payload
  | 0, _ => []
  | n + 1, stock_id =>
      let (stocks, stock_id) :=
        generateGroup (quotes lc) cfg.groupStock stock_id
      ⟨Int32.ofNat lc, stocks⟩ :: generateLoop cfg quotes lc n stock_id

def loopPayloads (cfg : Config) (quotes : Quotes) (lc : ℕ) : List Payload :=
  generateLoop cfg quotes lc cfg.groupCount 0

/-- What `sendto` is given in `loop_count` loops; `buffer` is the content of
the uninitialised array. -/
def udpClient (cfg : Config) (quotes : Quotes) (buffer : List UInt8)
    (loop_count : ℕ) : List (List UInt8) :=
  (List.range loop_count).flatMap fun lc =>
    (loopPayloads cfg quotes lc).map fun payload =>
      buildDatagram buffer payload.loop_id payload.records

/-! ## What is sent -/

def clientStock (quotes : Quotes) (lc i : ℕ) : Stock :=
  (quotes lc i).stock (Int32.ofNat i)

/-- Datagram `i` of loop `lc`: the stocks from `i * GROUP_STOCK` on. -/
def clientPayload (cfg : Config) (quotes : Quotes) (lc i : ℕ) : Payload where
  loop_id := Int32.ofNat lc
  records := (List.range cfg.groupStock).map fun j =>
    clientStock quotes lc (i * cfg.groupStock + j)

theorem generateGroup_eq (draw : ℕ → Quote) (n stock_id : ℕ) :
    generateGroup draw n stock_id =
      ((List.range n).map fun j =>
        (draw (stock_id + j)).stock (Int32.ofNat (stock_id + j)),
          stock_id + n) := by
  induction n generalizing stock_id with
  | zero => rfl
  | succ n ih =>
      simp only [generateGroup, stockGenerate]
      rw [ih, List.range_succ_eq_map, List.map_cons, List.map_map,
        Prod.mk.injEq]
      constructor
      · congr 1
        apply List.map_congr_left
        intro j _
        simp only [Function.comp_apply]
        rw [Nat.add_right_comm, Nat.add_assoc]
      · omega

theorem generateLoop_eq
    (cfg : Config) (quotes : Quotes) (lc n first : ℕ) :
    generateLoop cfg quotes lc n (first * cfg.groupStock) =
      (List.range n).map fun i => clientPayload cfg quotes lc (first + i) := by
  induction n generalizing first with
  | zero => rfl
  | succ n ih =>
      simp only [generateLoop]
      rw [generateGroup_eq, ← Nat.succ_mul, ih, List.range_succ_eq_map,
        List.map_cons, List.map_map]
      congr 1
      apply List.map_congr_left
      intro i _
      simp only [Function.comp_apply]
      rw [Nat.succ_add_eq_add_succ]

theorem loopPayloads_eq (cfg : Config) (quotes : Quotes) (lc : ℕ) :
    loopPayloads cfg quotes lc =
      (List.range cfg.groupCount).map (clientPayload cfg quotes lc) := by
  have hloop := generateLoop_eq cfg quotes lc cfg.groupCount 0
  rw [Nat.zero_mul] at hloop
  rw [loopPayloads, hloop]
  simp only [Nat.zero_add]

theorem records_clientPayload_eq_cons
    (cfg : Config) (quotes : Quotes) (lc i : ℕ) :
    ∃ rest, (clientPayload cfg quotes lc i).records =
      clientStock quotes lc (i * cfg.groupStock) :: rest := by
  obtain ⟨n, hn⟩ := Nat.exists_eq_succ_of_ne_zero cfg.groupStock_pos.ne'
  rw [clientPayload, hn, List.range_succ_eq_map, List.map_cons]
  exact ⟨_, rfl⟩

end StockFeed
