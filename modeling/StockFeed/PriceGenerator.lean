import StockFeed.Client
import StockFeed.NearestRounding

/-!
# How the client draws its prices

`stockGenerate` calls `rand` four times for each stock and scales the results
in `double` arithmetic.  `rand` is an arbitrary stream of values up to
`RAND_MAX`, and each call takes the next one.  A `double` is the rational it
stands for: all products and quotients of the source stay far from the ends of
its exponent range, so an operation is the exact one, rounded to 52 binary
digits behind the leading one.

The product `open*0.1` is inexact, and a bound on what is drawn has to survive
two more roundings.  It does: a price never moves by a full tenth.
-/

namespace StockFeed

open NearestRounding

/-! ## double and int -/

def double (q : ℚ) : ℚ := roundTo 52 q

/-- `(int)` of a `double`, which truncates. -/
def intOfDouble (q : ℚ) : Int32 :=
  Int32.ofInt (q.num.tdiv q.den)

def randMax : ℕ := 2 ^ 31 - 1

/-- What the calls of `rand` return, in their order. -/
abbrev RandStream := ℕ → Fin (randMax + 1)

/-- `(int)(factor*rand()/(RAND_MAX+1.0))`. -/
def scaledRand (factor : ℚ) (r : Fin (randMax + 1)) : Int32 :=
  intOfDouble (double (double (factor * r.val) / double (randMax + 1)))

/-- The literal `0.1`. -/
def tenth : ℚ := double (1 / 10)

/-! ## stockGenerate -/

/-- The four prices, drawn by the calls of `rand` from number `calls` on. -/
def drawQuote (rand : RandStream) (calls : ℕ) : Quote × ℕ :=
  let openPrice := scaledRand (double 100) (rand calls) + 30
  let spread := double (openPrice.toInt * tenth)
  let minPrice := openPrice - scaledRand spread (rand (calls + 1))
  let maxPrice := openPrice + scaledRand spread (rand (calls + 2))
  let closePrice := openPrice - scaledRand spread (rand (calls + 3))
  let closePrice := if closePrice < minPrice then minPrice else closePrice
  (⟨openPrice, closePrice, maxPrice, minPrice⟩, calls + 4)

/-- The variables which live across calls: the static `stock_id`, and how often
`rand` has been called. -/
structure Generator where
  stock_id : ℕ
  calls : ℕ

namespace Generator

def stockGenerate (rand : RandStream) (g : Generator) : Stock × Generator :=
  let (quote, calls) := drawQuote rand g.calls
  (quote.stock (Int32.ofNat g.stock_id), ⟨g.stock_id + 1, calls⟩)

/-- The loop over `j`. -/
def generateGroup (rand : RandStream) :
    ℕ → Generator → List Stock × Generator
  | 0, g => ([], g)
  | n + 1, g =>
      let (stk, g) := stockGenerate rand g
      let (rest, g) := generateGroup rand n g
      (stk :: rest, g)

/-- The loop over `i`, in loop `lc`. -/
def generateLoop (cfg : Config) (rand : RandStream) (lc : ℕ) :
    ℕ → Generator → List Payload × Generator
  | 0, g => ([], g)
  | n + 1, g =>
      let (stocks, g) := generateGroup rand cfg.groupStock g
      let (rest, g) := generateLoop cfg rand lc n g
      (⟨Int32.ofNat lc, stocks⟩ :: rest, g)

/-- The loop over `lc`, which resets `stock_id` but not `rand`. -/
def generateLoops (cfg : Config) (rand : RandStream) (lc : ℕ) :
    ℕ → Generator → List Payload
  | 0, _ => []
  | n + 1, g =>
      let (payloads, g) :=
        generateLoop cfg rand lc cfg.groupCount { g with stock_id := 0 }
      payloads ++ generateLoops cfg rand (lc + 1) n g

/-- What `sendto` is given, with the prices the client draws. -/
def udpClient (cfg : Config) (rand : RandStream) (buffer : List UInt8)
    (loop_count : ℕ) : List (List UInt8) :=
  (generateLoops cfg rand 0 loop_count ⟨0, 0⟩).map fun payload =>
    buildDatagram buffer payload.loop_id payload.records

end Generator

/-- The prices of stock `i` in loop `lc` come from calls of `rand` of their
own. -/
def randQuotes (cfg : Config) (rand : RandStream) : Quotes := fun lc i =>
  (drawQuote rand
    (4 * (lc * (cfg.groupCount * cfg.groupStock) + i))).1

/-! ## The stream of quotes -/

namespace Generator

variable (cfg : Config) (rand : RandStream)

theorem generateGroup_eq (lc n i : ℕ) :
    generateGroup rand n
        ⟨i, 4 * (lc * (cfg.groupCount * cfg.groupStock) + i)⟩ =
      ((StockFeed.generateGroup (randQuotes cfg rand lc) n i).1,
        ⟨i + n, 4 * (lc * (cfg.groupCount * cfg.groupStock) + (i + n))⟩) := by
  induction n generalizing i with
  | zero => rfl
  | succ n ih =>
      have hnext := ih (i + 1)
      simp only [generateGroup, stockGenerate, StockFeed.generateGroup,
        StockFeed.stockGenerate]
      have hcalls : (drawQuote rand
          (4 * (lc * (cfg.groupCount * cfg.groupStock) + i))).2 =
            4 * (lc * (cfg.groupCount * cfg.groupStock) + (i + 1)) := by
        simp only [drawQuote]
        omega
      rw [hcalls, hnext, show i + 1 + n = i + (n + 1) by omega]
      rfl

theorem generateLoop_eq (lc n i : ℕ) :
    generateLoop cfg rand lc n
        ⟨i, 4 * (lc * (cfg.groupCount * cfg.groupStock) + i)⟩ =
      (StockFeed.generateLoop cfg (randQuotes cfg rand) lc n i,
        ⟨i + n * cfg.groupStock, 4 * (lc * (cfg.groupCount * cfg.groupStock) +
          (i + n * cfg.groupStock))⟩) := by
  induction n generalizing i with
  | zero => simp [generateLoop, StockFeed.generateLoop]
  | succ n ih =>
      have hgroup := StockFeed.generateGroup_eq (randQuotes cfg rand lc)
        cfg.groupStock i
      simp only [generateLoop, StockFeed.generateLoop]
      rw [generateGroup_eq, ih, hgroup, Nat.add_assoc i,
        show cfg.groupStock + n * cfg.groupStock =
          (n + 1) * cfg.groupStock by ring]

theorem generateLoops_eq (lc n stock_id : ℕ) :
    generateLoops cfg rand lc n
        ⟨stock_id, 4 * (lc * (cfg.groupCount * cfg.groupStock))⟩ =
      (List.range' lc n).flatMap (loopPayloads cfg (randQuotes cfg rand)) := by
  induction n generalizing lc stock_id with
  | zero => rfl
  | succ n ih =>
      have hloop := generateLoop_eq cfg rand lc cfg.groupCount 0
      rw [Nat.add_zero] at hloop
      simp only [generateLoops]
      rw [hloop, List.range'_succ, List.flatMap_cons]
      simp only [Nat.zero_add]
      rw [show lc * (cfg.groupCount * cfg.groupStock) +
        cfg.groupCount * cfg.groupStock =
          (lc + 1) * (cfg.groupCount * cfg.groupStock) by ring, ih]
      rfl

/-- The client of the source is the client with arbitrary quotes, at the quotes
it draws. -/
theorem udpClient_eq (buffer : List UInt8) (loop_count : ℕ) :
    udpClient cfg rand buffer loop_count =
      StockFeed.udpClient cfg (randQuotes cfg rand) buffer loop_count := by
  have hloops := generateLoops_eq cfg rand 0 loop_count 0
  rw [Nat.zero_mul, Nat.mul_zero] at hloops
  rw [udpClient, hloops, StockFeed.udpClient, List.map_flatMap,
    List.range_eq_range']

end Generator

/-! ## Bounds -/

theorem double_randMax_add_one : double (randMax + 1) = 2 ^ 31 := by
  have hvalue : ((randMax : ℚ) + 1) = ((2 ^ 31 : ℤ) : ℚ) := by
    norm_num [randMax]
  rw [double, hvalue, roundTo_of_representable (representable_intCast
    (by norm_num))]
  norm_num

theorem intOfDouble_bounds
    {q : ℚ} {n : ℤ} (hq : 0 ≤ q) (hlt : q < n + 1) (hn : n < 2 ^ 31) :
    0 ≤ (intOfDouble q).toInt ∧ (intOfDouble q).toInt ≤ n := by
  have htrunc : q.num.tdiv q.den = ⌊q⌋ := by
    rw [Int.tdiv_eq_ediv_of_nonneg (Rat.num_nonneg.mpr hq),
      ← Rat.floor_intCast_div_natCast, Rat.num_div_den]
  have hlow : 0 ≤ ⌊q⌋ := Int.floor_nonneg.mpr hq
  have hhigh : ⌊q⌋ < n + 1 := by
    rw [Int.floor_lt]
    exact_mod_cast hlt
  rw [intOfDouble, htrunc, Int32.toInt_ofInt_of_le (by omega) (by omega)]
  omega

/-- If the largest draw stays below the next integer, so does every draw and
what rounding makes of it. -/
theorem scaledRand_bounds
    {factor : ℚ} {n : ℤ} (hfactor : 0 ≤ factor) (hn : 0 ≤ n) (hn' : n < 2 ^ 20)
    (hlargest : factor * randMax ≤ (n + 1) * 2 ^ 31 - 1)
    (r : Fin (randMax + 1)) :
    0 ≤ (scaledRand factor r).toInt ∧ (scaledRand factor r).toInt ≤ n := by
  have hr : (r.val : ℚ) ≤ randMax := by
    exact_mod_cast Nat.lt_succ_iff.mp r.isLt
  have hproduct : 0 ≤ factor * r.val := mul_nonneg hfactor (Nat.cast_nonneg _)
  have hbound : Representable 52 (((n + 1) * 2 ^ 31 - 1 : ℤ) : ℚ) := by
    apply representable_intCast
    rw [abs_of_nonneg (by omega)]
    norm_num
    omega
  have hscaled : double (factor * r.val) ≤ (((n + 1) * 2 ^ 31 - 1 : ℤ) : ℚ) := by
    apply roundTo_le hproduct _ hbound
    push_cast
    exact (mul_le_mul_of_nonneg_left hr hfactor).trans hlargest
  have hnonneg : 0 ≤ double (factor * r.val) / 2 ^ 31 :=
    div_nonneg (roundTo_nonneg hproduct) (by norm_num)
  have hquotient : double (double (factor * r.val) / 2 ^ 31) ≤
      (((n + 1) * 2 ^ 31 - 1 : ℤ) : ℚ) / 2 ^ 31 :=
    roundTo_le hnonneg
      (div_le_div_of_nonneg_right hscaled (by norm_num))
      (hbound.div_two_pow 31)
  rw [scaledRand, double_randMax_add_one]
  apply intOfDouble_bounds (roundTo_nonneg hnonneg) _ (by omega)
  apply hquotient.trans_lt
  rw [div_lt_iff₀ (by norm_num)]
  push_cast
  linarith

/-- A tenth of an opening price, rounded, and scaled by the largest draw. -/
theorem spread_largest :
    ∀ openPrice : Fin 130, 30 ≤ openPrice.val →
      double (((openPrice.val : ℤ) : ℚ) * tenth) * randMax ≤
        ((((openPrice.val - 1) / 10 : ℕ) : ℤ) + 1) * 2 ^ 31 - 1 := by
  decide +kernel

/-- What an opening price is moved by is less than a tenth of it. -/
theorem spread_bounds
    {openPrice : Int32} (hlow : 30 ≤ openPrice.toInt)
    (hhigh : openPrice.toInt ≤ 129) (r : Fin (randMax + 1)) :
    let move := scaledRand (double (openPrice.toInt * tenth)) r
    0 ≤ move.toInt ∧ 10 * move.toInt < openPrice.toInt := by
  intro move
  obtain ⟨n, hn⟩ := Int.eq_ofNat_of_zero_le (show 0 ≤ openPrice.toInt by omega)
  have hlargest := spread_largest ⟨n, by omega⟩ (show 30 ≤ n by omega)
  rw [show ((n : ℕ) : ℤ) = openPrice.toInt from hn.symm] at hlargest
  have hnonneg : 0 ≤ double (openPrice.toInt * tenth) := by
    apply roundTo_nonneg
    apply mul_nonneg _ (roundTo_nonneg (by norm_num))
    exact_mod_cast (show 0 ≤ openPrice.toInt by omega)
  have hbounds := scaledRand_bounds hnonneg (Int.natCast_nonneg _)
    (show (((n - 1) / 10 : ℕ) : ℤ) < 2 ^ 20 by omega) hlargest r
  refine ⟨hbounds.1, ?_⟩
  have hmove := hbounds.2
  change move.toInt ≤ _ at hmove
  omega

theorem toInt_add_of_small
    {a b : Int32} (hlow : -2 ^ 31 ≤ a.toInt + b.toInt)
    (hhigh : a.toInt + b.toInt < 2 ^ 31) :
    (a + b).toInt = a.toInt + b.toInt := by
  rw [Int32.toInt_add]
  exact Int.bmod_eq_of_le (by omega) (by omega)

theorem toInt_sub_of_small
    {a b : Int32} (hlow : -2 ^ 31 ≤ a.toInt - b.toInt)
    (hhigh : a.toInt - b.toInt < 2 ^ 31) :
    (a - b).toInt = a.toInt - b.toInt := by
  rw [Int32.toInt_sub]
  exact Int.bmod_eq_of_le (by omega) (by omega)

/-- Prices as `stockGenerate` draws them: the opening price is at least 30 and
below 130, the others are less than a tenth away. -/
structure Quote.Drawn (quote : Quote) : Prop where
  open_ge : 30 ≤ quote.openPrice.toInt
  open_le : quote.openPrice.toInt ≤ 129
  min_le_close : quote.minPrice.toInt ≤ quote.closePrice.toInt
  close_le_open : quote.closePrice.toInt ≤ quote.openPrice.toInt
  open_le_max : quote.openPrice.toInt ≤ quote.maxPrice.toInt
  min_near : 10 * (quote.openPrice.toInt - quote.minPrice.toInt) <
    quote.openPrice.toInt
  max_near : 10 * (quote.maxPrice.toInt - quote.openPrice.toInt) <
    quote.openPrice.toInt

theorem openPrice_bounds (r : Fin (randMax + 1)) :
    let openPrice := scaledRand (double 100) r + 30
    30 ≤ openPrice.toInt ∧ openPrice.toInt ≤ 129 := by
  intro openPrice
  have hhundred : double 100 = 100 := by
    have hrepr : Representable 52 ((100 : ℤ) : ℚ) :=
      representable_intCast (by norm_num)
    exact_mod_cast roundTo_of_representable hrepr
  have hdraw := scaledRand_bounds (show 0 ≤ double 100 by rw [hhundred]; norm_num)
    (show (0 : ℤ) ≤ 99 by norm_num) (by norm_num)
    (by rw [hhundred]; norm_num [randMax]) r
  have hthirty : Int32.toInt 30 = 30 := rfl
  have hopen : openPrice.toInt = (scaledRand (double 100) r).toInt + 30 :=
    toInt_add_of_small (by omega) (by omega)
  omega

theorem drawn_of_moves
    {openPrice down up drop : Int32}
    (hopen : 30 ≤ openPrice.toInt ∧ openPrice.toInt ≤ 129)
    (hdown : 0 ≤ down.toInt ∧ 10 * down.toInt < openPrice.toInt)
    (hup : 0 ≤ up.toInt ∧ 10 * up.toInt < openPrice.toInt)
    (hdrop : 0 ≤ drop.toInt ∧ 10 * drop.toInt < openPrice.toInt) :
    Quote.Drawn ⟨openPrice, if openPrice - drop < openPrice - down
      then openPrice - down else openPrice - drop, openPrice + up,
      openPrice - down⟩ := by
  have hmin : (openPrice - down).toInt = openPrice.toInt - down.toInt :=
    toInt_sub_of_small (by omega) (by omega)
  have hmax : (openPrice + up).toInt = openPrice.toInt + up.toInt :=
    toInt_add_of_small (by omega) (by omega)
  have hclose : (openPrice - drop).toInt = openPrice.toInt - drop.toInt :=
    toInt_sub_of_small (by omega) (by omega)
  split_ifs with hlt
  · constructor <;> simp only [hmin, hmax] <;> omega
  · -- the drawn close price stands, so it is not below the minimum
    rw [Int32.lt_iff_toInt_lt] at hlt
    constructor <;> simp only [hmin, hmax, hclose] <;> omega

theorem drawQuote_drawn (rand : RandStream) (calls : ℕ) :
    (drawQuote rand calls).1.Drawn := by
  have hopen := openPrice_bounds (rand calls)
  have hmove := spread_bounds hopen.1 hopen.2
  exact drawn_of_moves hopen (hmove (rand (calls + 1)))
    (hmove (rand (calls + 2))) (hmove (rand (calls + 3)))

theorem Quote.Drawn.close_bounds {quote : Quote} (hdrawn : quote.Drawn) :
    28 ≤ quote.closePrice.toInt ∧ quote.closePrice.toInt ≤ 129 := by
  obtain ⟨hge, hle, hmin, hclose, _, hnear, _⟩ := hdrawn
  omega

/-! ## What arrives -/

/-- The prices of a record. -/
def Stock.quote (st : Stock) : Quote :=
  ⟨st.open_price_, st.close_price_, st.max_price_, st.min_price_⟩

/-- A payload the server reads from a datagram of some run of the client. -/
def FromClient (cfg : Config) (p : Payload) : Prop :=
  ∃ (rand : RandStream) (buffer : List UInt8) (loop_count : ℕ),
    buffer.length = cfg.payloadSize ∧
      ∃ datagram ∈ Generator.udpClient cfg rand buffer loop_count,
        readDatagram cfg datagram = some p

theorem length_records_of_mem_loopPayloads
    {cfg : Config} {quotes : Quotes} {lc : ℕ} {p : Payload}
    (hp : p ∈ loopPayloads cfg quotes lc) :
    p.records.length = cfg.groupStock := by
  rw [loopPayloads_eq, List.mem_map] at hp
  obtain ⟨i, _, rfl⟩ := hp
  rw [clientPayload, List.length_map, List.length_range]

theorem readDatagram_buildDatagram
    {cfg : Config} {buffer : List UInt8}
    (hbuffer : buffer.length = cfg.payloadSize) {p : Payload}
    (hrecords : p.records.length = cfg.groupStock) :
    readDatagram cfg (buildDatagram buffer p.loop_id p.records) = some p := by
  rw [buildDatagram_eq_bytes p hbuffer hrecords, ← List.append_nil p.bytes,
    readDatagram_bytes_append p hrecords]

/-- A datagram of the client is read as one of the payloads it generated. -/
theorem readDatagram_udpClient
    {cfg : Config} {rand : RandStream} {buffer : List UInt8} {loop_count : ℕ}
    (hbuffer : buffer.length = cfg.payloadSize) {datagram : List UInt8}
    (hsent : datagram ∈ Generator.udpClient cfg rand buffer loop_count) :
    ∃ lc < loop_count, ∃ p ∈ loopPayloads cfg (randQuotes cfg rand) lc,
      readDatagram cfg datagram = some p := by
  rw [Generator.udpClient_eq, udpClient, List.mem_flatMap] at hsent
  obtain ⟨lc, hlc, hdatagram⟩ := hsent
  obtain ⟨p, hp, rfl⟩ := List.mem_map.mp hdatagram
  exact ⟨lc, List.mem_range.mp hlc, p, hp, readDatagram_buildDatagram hbuffer
    (length_records_of_mem_loopPayloads hp)⟩

theorem drawn_of_mem_loopPayloads
    {cfg : Config} {rand : RandStream} {lc : ℕ} {p : Payload}
    (hp : p ∈ loopPayloads cfg (randQuotes cfg rand) lc) :
    ∀ st ∈ p.records, st.quote.Drawn := by
  rw [loopPayloads_eq, List.mem_map] at hp
  obtain ⟨i, _, rfl⟩ := hp
  intro st hst
  obtain ⟨j, _, rfl⟩ := List.mem_map.mp hst
  exact drawQuote_drawn rand _

theorem FromClient.drawn {cfg : Config} {p : Payload} (hp : FromClient cfg p) :
    ∀ st ∈ p.records, st.quote.Drawn := by
  obtain ⟨rand, buffer, loop_count, hbuffer, datagram, hsent, hread⟩ := hp
  obtain ⟨lc, _, p', hp', hread'⟩ := readDatagram_udpClient hbuffer hsent
  rw [hread, Option.some.injEq] at hread'
  rw [hread']
  exact drawn_of_mem_loopPayloads hp'

theorem fromClient_of_mem_loopPayloads
    {cfg : Config} {rand : RandStream} {lc : ℕ} {p : Payload}
    (hp : p ∈ loopPayloads cfg (randQuotes cfg rand) lc) :
    FromClient cfg p := by
  have hbuffer : (List.replicate cfg.payloadSize (0 : UInt8)).length =
      cfg.payloadSize := List.length_replicate
  refine ⟨rand, _, lc + 1, hbuffer, _, ?_, readDatagram_buildDatagram hbuffer
    (length_records_of_mem_loopPayloads hp)⟩
  rw [Generator.udpClient_eq, udpClient, List.mem_flatMap]
  exact ⟨lc, List.self_mem_range_succ, List.mem_map.mpr ⟨p, hp, rfl⟩⟩

/-- The quote of a stock is the one which the next four calls of `rand` draw. -/
theorem clientPayload_randQuotes
    (cfg : Config) (rand : RandStream) (lc i : ℕ) :
    clientPayload cfg (randQuotes cfg rand) lc i =
      ⟨Int32.ofNat lc, (List.range cfg.groupStock).map fun j =>
        (drawQuote rand (4 * ((lc * cfg.groupCount + i) * cfg.groupStock + j))
          ).1.stock (Int32.ofNat (i * cfg.groupStock + j))⟩ := by
  rw [clientPayload, Payload.mk.injEq]
  refine ⟨rfl, List.map_congr_left ?_⟩
  intro j _
  have hcalls : lc * (cfg.groupCount * cfg.groupStock) +
      (i * cfg.groupStock + j) =
        (lc * cfg.groupCount + i) * cfg.groupStock + j := by ring
  rw [clientStock, randQuotes, hcalls]

/-- Whatever `rand` returns, the server reads what the client sends as groups of
`GROUP_STOCK` records, numbered through each loop, with the quotes drawn by one
call after the other; and whatever is drawn has its prices in order and close
together. -/
theorem sent_records_drawn
    (cfg : Config) (rand : RandStream) (buffer : List UInt8)
    (hbuffer : buffer.length = cfg.payloadSize) (loop_count : ℕ) :
    (Generator.udpClient cfg rand buffer loop_count).map (readDatagram cfg) =
      (List.range loop_count).flatMap (fun lc =>
        (List.range cfg.groupCount).map fun i => some
          ⟨Int32.ofNat lc, (List.range cfg.groupStock).map fun j =>
            (drawQuote rand
              (4 * ((lc * cfg.groupCount + i) * cfg.groupStock + j))
                ).1.stock (Int32.ofNat (i * cfg.groupStock + j))⟩) ∧
    ∀ datagram ∈ Generator.udpClient cfg rand buffer loop_count,
      ∀ p, readDatagram cfg datagram = some p →
        ∀ st ∈ p.records, st.quote.Drawn := by
  constructor
  · rw [Generator.udpClient_eq, udpClient, List.map_flatMap]
    apply List.flatMap_congr
    intro lc _
    rw [loopPayloads_eq, List.map_map, List.map_map]
    apply List.map_congr_left
    intro i _
    rw [← clientPayload_randQuotes]
    apply readDatagram_buildDatagram hbuffer
    rw [clientPayload, List.length_map, List.length_range]
  · intro datagram hsent p hread
    exact FromClient.drawn
      ⟨rand, buffer, loop_count, hbuffer, datagram, hsent, hread⟩

/-- A `rand` which counts. -/
theorem sent_records_drawn_counting :
    let rand : RandStream := fun k => Fin.ofNat _ (k * 12345)
    let buffer : List UInt8 := List.replicate 404 255
    let sent := Generator.udpClient Config.shipped rand buffer 2
    buffer.length = Config.shipped.payloadSize ∧ sent.length = 1000 ∧
      ∀ datagram ∈ sent, ∀ p, readDatagram Config.shipped datagram = some p →
        ∀ st ∈ p.records, st.quote.Drawn := by
  intro rand buffer sent
  have hbuffer : buffer.length = Config.shipped.payloadSize :=
    List.length_replicate
  obtain ⟨hread, hdrawn⟩ :=
    sent_records_drawn Config.shipped rand buffer hbuffer 2
  have hlength := congrArg List.length hread
  rw [List.length_map, List.length_flatMap] at hlength
  simp only [List.length_map, List.length_range] at hlength
  exact ⟨hbuffer, hlength.trans (by decide), hdrawn⟩

end StockFeed
