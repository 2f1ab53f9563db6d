import StockFeed.Coefficient
import StockFeed.FaultFreeRun
import StockFeed.KernelReduction
import Mathlib.Tactic.FieldSimp
import Mathlib.Tactic.Linarith

/-!
# The value of one pair

`coefficient_single` allocates its scratch buffer, threads five launches
through it and frees it again; whatever the launches return, the rest is a
formula over five totals.  The comment above the function gives the formula it
is meant to be, Pearson's coefficient.  The code divides the whole numerator by
the length and takes plain sums for the sums of squares.

With launches which return their intended totals, the two main results say on
which windows the formula nevertheless agrees with the comment, and on which
the quotient is defined and at most one.
-/

namespace StockFeed

open StateAction

/-! ## One call -/

section Calls

variable {K : Type}

theorem deviceArray_apply
    {device : Device K} {p : ℕ} {array : List K}
    (hlive : device.memory[p]? = some (some array)) :
    deviceArray p device = .ok array device := by
  rw [deviceArray, bind_apply_of_ok (get_apply device), hlive]
  rfl

theorem liftChecked_apply {α : Type} {result : Checked α} {a : α}
    (hok : result = .ok a) (device : Device K) :
    liftChecked result device = .ok a device := by
  rw [hok]
  rfl

theorem getElem?_concat_self {α : Type} (base : List α) (a : α) :
    (base ++ [a])[base.length]? = some a := by
  rw [List.getElem?_append_right le_rfl, Nat.sub_self]
  rfl

theorem set_concat_self {α : Type} (base : List α) (a b : α) :
    (base ++ [a]).set base.length b = base ++ [b] := by
  rw [List.set_append_right _ _ le_rfl, Nat.sub_self]
  rfl

variable [Zero K] [Add K]

theorem launchTotal_apply
    {kernel : List K → Checked (List K)} {value : K}
    (hkernel : ∀ x, kernel [x] = .ok [value])
    {device : Device K} {base : List (Option (List K))} {x : K}
    (hmemory : device.memory = base ++ [some [x]]) (y : K) :
    launchTotal kernel base.length [y] device =
      .ok ([value], 0 + value)
        { device with memory := base ++ [some [value]] } := by
  have hlive : device.memory[base.length]? = some (some [x]) := by
    rw [hmemory, getElem?_concat_self]
  have hset : device.memory.set base.length (some [value]) =
      base ++ [some [value]] := by
    rw [hmemory, set_concat_self]
  have hcopied : ({ device with
      memory := base ++ [some [value]] } : Device K).memory[base.length]? =
        some (some [value]) := getElem?_concat_self _ _
  have hmemcpy : cudaMemcpyDeviceToHost [y] base.length blockNum
      { device with memory := base ++ [some [value]] } =
        .ok [value] { device with memory := base ++ [some [value]] } := by
    rw [cudaMemcpyDeviceToHost, bind_apply_of_ok (deviceArray_apply hcopied)]
    rfl
  have htotal : (List.range blockNum).foldlM (fun total ii => do
      let value ← readAt [value] ii
      return total + value) 0 = (.ok (0 + value) : Checked K) := rfl
  rw [launchTotal, bind_apply_of_ok (deviceArray_apply hlive),
    bind_apply_of_ok (liftChecked_apply (hkernel x) device), setDeviceArray,
    bind_apply_of_ok (modify_apply _ device), hset, bind_apply_of_ok hmemcpy,
    bind_apply_of_ok (liftChecked_apply htotal _)]
  rfl

/-- The launches of one call return these totals. -/
structure Launches.Computes (launches : Launches K) (a b : List K)
    (sums : Sums K) : Prop where
  dot : ∀ x, launches.dot.dot a b [x] = .ok [sums.dot]
  sum_x : ∀ x, launches.sum_x.sum a [x] = .ok [sums.sum_x]
  sum_y : ∀ x, launches.sum_y.sum b [x] = .ok [sums.sum_y]
  sum_y_2 : ∀ x, launches.sum_y_2.sum b [x] = .ok [sums.sum_y_2]
  sum_x_2 : ∀ x, launches.sum_x_2.sum a [x] = .ok [sums.sum_x_2]

/-- The variables of the host, to which it adds what it has copied. -/
def Sums.accumulated (sums : Sums K) : Sums K where
  dot := 0 + sums.dot
  sum_x := 0 + sums.sum_x
  sum_y := 0 + sums.sum_y
  sum_y_2 := 0 + sums.sum_y_2
  sum_x_2 := 0 + sums.sum_x_2

theorem gatherSums_apply
    {launches : Launches K} {a b : List K} {sums : Sums K}
    (hcomputes : launches.Computes a b sums)
    {device : Device K} {base : List (Option (List K))} {x : K}
    (hmemory : device.memory = base ++ [some [x]]) {dev_a dev_b : ℕ}
    (ha : base[dev_a]? = some (some a)) (hb : base[dev_b]? = some (some b))
    (y : K) :
    gatherSums launches dev_a dev_b base.length [y] device =
      .ok sums.accumulated
        { device with memory := base ++ [some [sums.sum_x_2]] } := by
  have hlive : ∀ {p : ℕ} {array : List K}, base[p]? = some (some array) →
      device.memory[p]? = some (some array) := by
    intro p array hp
    rw [hmemory, List.getElem?_append_left (List.getElem?_eq_some_iff.mp hp).1]
    exact hp
  rw [gatherSums, bind_apply_of_ok (deviceArray_apply (hlive ha)),
    bind_apply_of_ok (deviceArray_apply (hlive hb)),
    bind_apply_of_ok (launchTotal_apply hcomputes.dot hmemory y)]
  simp only
  rw [bind_apply_of_ok (launchTotal_apply hcomputes.sum_x rfl _)]
  simp only
  rw [bind_apply_of_ok (launchTotal_apply hcomputes.sum_y rfl _)]
  simp only
  rw [bind_apply_of_ok (launchTotal_apply hcomputes.sum_y_2 rfl _)]
  simp only
  rw [bind_apply_of_ok (launchTotal_apply hcomputes.sum_x_2 rfl _)]
  rfl

/-- The scratch buffer and the five launches of a call. -/
def scratchSums (junk : Junk K) (launches : Launches K) (dev_a dev_b : ℕ) :
    DeviceM K (Sums K) := do
  let dev_o ← cudaMalloc junk blockNum
  gatherSums launches dev_a dev_b dev_o (List.replicate blockNum junk.cell)

/-- A call returns the quotient of its totals, and leaves nothing behind but
one allocation which is freed again. -/
theorem coefficientSingleWith_apply
    {V : Type} (host : HostFloat K V) (junk : Junk K)
    {launches : Launches K} {a b : List K} {sums : Sums K}
    (hcomputes : launches.Computes a b sums)
    {device : Device K} {dev_a dev_b : ℕ}
    (ha : device.memory[dev_a]? = some (some a))
    (hb : device.memory[dev_b]? = some (some b)) :
    coefficientSingleWith host junk launches dev_a dev_b device =
      .ok (host.quotient sums.accumulated) { device with
        memory := device.memory ++ [none]
        ops := device.ops ++ [.cudaMalloc device.memory.length,
          .cudaFree device.memory.length] } := by
  let allocated : Device K := { device with
    memory := device.memory ++ [some [junk.cell]]
    ops := device.ops ++ [.cudaMalloc device.memory.length] }
  have hmalloc : cudaMalloc junk blockNum device =
      .ok device.memory.length allocated := rfl
  have hgather : gatherSums launches dev_a dev_b device.memory.length
      (List.replicate blockNum junk.cell) allocated = _ :=
    gatherSums_apply hcomputes rfl ha hb junk.cell
  rw [coefficientSingleWith, bind_apply_of_ok hmalloc, bind_apply_of_ok hgather,
    cudaFree, bind_apply_of_ok (modify_apply _ _)]
  simp only [allocated, set_concat_self, List.append_assoc, List.cons_append,
    List.nil_append]
  rfl

end Calls

/-! ## Intended totals

From here on arithmetic is exact.
-/

section Intended

variable {K : Type} [Field K]

theorem Sums.accumulated_eq (sums : Sums K) : sums.accumulated = sums := by
  simp only [Sums.accumulated, zero_add]

theorem scratchSums_apply
    {junk : Junk K} {launches : Launches K} {a b : List K} {sums : Sums K}
    (hcomputes : launches.Computes a b sums)
    {device : Device K} {dev_a dev_b : ℕ}
    (ha : device.memory[dev_a]? = some (some a))
    (hb : device.memory[dev_b]? = some (some b)) :
    scratchSums junk launches dev_a dev_b device =
      .ok sums { device with
        memory := device.memory ++ [some [sums.sum_x_2]]
        ops := device.ops ++ [.cudaMalloc device.memory.length] } := by
  let allocated : Device K := { device with
    memory := device.memory ++ [some [junk.cell]]
    ops := device.ops ++ [.cudaMalloc device.memory.length] }
  have hgather : gatherSums launches dev_a dev_b device.memory.length
      [junk.cell] allocated = _ :=
    gatherSums_apply hcomputes rfl ha hb junk.cell
  rw [sums.accumulated_eq] at hgather
  exact hgather

theorem coefficientSingle_apply
    [LinearOrder K] (cfg : Config) (sqrt : SquareRoot K) (junk : Junk K)
    {launches : Launches K} {a b : List K} {sums : Sums K}
    (hcomputes : launches.Computes a b sums)
    {device : Device K} {dev_a dev_b : ℕ}
    (ha : device.memory[dev_a]? = some (some a))
    (hb : device.memory[dev_b]? = some (some b)) :
    coefficientSingle cfg sqrt junk launches dev_a dev_b device =
      .ok (sums.quotient cfg sqrt) { device with
        memory := device.memory ++ [none]
        ops := device.ops ++ [.cudaMalloc device.memory.length,
          .cudaFree device.memory.length] } := by
  have hcall := coefficientSingleWith_apply (.exact cfg sqrt) junk hcomputes ha
    hb
  rw [sums.accumulated_eq] at hcall
  exact hcall

/-- Kernels which write the total they are named after. -/
def Kernels.intended : Kernels K where
  dot a b output := writeAt output 0 (List.zipWith (· * ·) a b).sum
  sum a output := writeAt output 0 a.sum

def Launches.intended : Launches K :=
  ⟨.intended, .intended, .intended, .intended, .intended⟩

def Sums.intended (a b : List K) : Sums K where
  dot := (List.zipWith (· * ·) a b).sum
  sum_x := a.sum
  sum_y := b.sum
  sum_y_2 := b.sum
  sum_x_2 := a.sum

theorem Launches.intended_computes (a b : List K) :
    Launches.intended.Computes a b (Sums.intended a b) :=
  ⟨fun _ => rfl, fun _ => rfl, fun _ => rfl, fun _ => rfl, fun _ => rfl⟩

/-! ## The formula of the comment -/

/-- `sum(X .* Y) - (sum(X) * sum(Y)) / length(X)`. -/
def pearsonFenzi (X Y : List K) : K :=
  (List.zipWith (· * ·) X Y).sum - X.sum * Y.sum / X.length

/-- `(sum(X .^2) - sum(X)^2 / length(X)) * (sum(Y .^2) - sum(Y)^2 / length(X))`. -/
def pearsonRadicand (X Y : List K) : K :=
  ((X.map (· ^ 2)).sum - X.sum ^ 2 / X.length) *
    ((Y.map (· ^ 2)).sum - Y.sum ^ 2 / X.length)

/-- The numerators agree on windows of one price and on orthogonal windows, the
radicands where a sum may stand for a sum of squares. -/
def FormulasAgree (X Y : List K) : Prop :=
  (X.length = 1 ∨ (List.zipWith (· * ·) X Y).sum = 0) ∧
    (X.length : K) *
        ((X.map (· ^ 2)).sum * (Y.map (· ^ 2)).sum - X.sum * Y.sum) =
      ((X.map (· ^ 2)).sum - X.sum) * Y.sum ^ 2 +
        ((Y.map (· ^ 2)).sum - Y.sum) * X.sum ^ 2

variable [CharZero K]

theorem numerators_eq_iff {n : ℕ} (hn : 0 < n) (dot product : K) :
    (dot - product) / n = dot - product / n ↔ n = 1 ∨ dot = 0 := by
  have hne : (n : K) ≠ 0 := Nat.cast_ne_zero.mpr hn.ne'
  have hone : (n : K) - 1 = 0 ↔ n = 1 := by
    rw [sub_eq_zero, Nat.cast_eq_one]
  rw [← hone, ← mul_eq_zero]
  constructor
  · intro heq
    field_simp at heq
    linear_combination -heq
  · intro hzero
    field_simp
    linear_combination -hzero

theorem radicands_eq_iff {n : ℕ} (hn : 0 < n) (sx sy sxx syy : K) :
    (sx - sx * sx / n) * (sy - sy * sy / n) =
        (sxx - sx ^ 2 / n) * (syy - sy ^ 2 / n) ↔
      n * (sxx * syy - sx * sy) =
        (sxx - sx) * sy ^ 2 + (syy - sy) * sx ^ 2 := by
  have hne : (n : K) ≠ 0 := Nat.cast_ne_zero.mpr hn.ne'
  have hdifference : n * ((sxx - sx ^ 2 / n) * (syy - sy ^ 2 / n) -
        (sx - sx * sx / n) * (sy - sy * sy / n)) =
      n * (sxx * syy - sx * sy) -
        ((sxx - sx) * sy ^ 2 + (syy - sy) * sx ^ 2) := by
    field_simp
    ring
  constructor
  · intro heq
    rw [heq, sub_self, mul_zero] at hdifference
    linear_combination -hdifference
  · intro heq
    rw [heq, sub_self] at hdifference
    have hzero := (mul_eq_zero.mp hdifference).resolve_left hne
    linear_combination -hzero

/-- On windows of `ARRAY_LENGTH` values and with intended totals, in exact
arithmetic, `fenzi` and the radicand are those of the comment exactly where `FormulasAgree` holds. -/
theorem coefficientSingle_pearson_iff
    (cfg : Config) (junk : Junk K) {X Y : List K}
    (hX : X.length = cfg.priceListSize)
    {device : Device K} {dev_a dev_b : ℕ}
    (ha : device.memory[dev_a]? = some (some X))
    (hb : device.memory[dev_b]? = some (some Y)) :
    ∃ sums device', scratchSums junk .intended dev_a dev_b device =
        .ok sums device' ∧
      ((sums.fenzi cfg = pearsonFenzi X Y ∧
          sums.radicand cfg = pearsonRadicand X Y) ↔
        FormulasAgree X Y) := by
  have hpos : 0 < X.length := hX ▸ cfg.priceListSize_pos
  refine ⟨_, _, scratchSums_apply (Launches.intended_computes X Y) ha hb, ?_⟩
  rw [Sums.fenzi, Sums.radicand, pearsonFenzi, pearsonRadicand, ← hX]
  exact and_congr (numerators_eq_iff hpos _ _) (radicands_eq_iff hpos _ _ _ _)

end Intended

/-- Two windows of four prices each. -/
theorem coefficientSingle_pearson_trio :
    let X : List ℚ := [-2, -1, 1, 0]
    let Y : List ℚ := [1, 2, 4, 7]
    let device : Device ℚ := ⟨[some X, some Y], [], none⟩
    FormulasAgree X Y ∧
      ∃ sums device', scratchSums ⟨7, 0⟩ .intended 0 1 device =
          .ok sums device' ∧
        sums.fenzi Config.trio = pearsonFenzi X Y ∧
        sums.radicand Config.trio = pearsonRadicand X Y := by
  intro X Y device
  have hagree : FormulasAgree X Y := by
    norm_num [FormulasAgree, X, Y]
  obtain ⟨sums, device', hrun, hiff⟩ := coefficientSingle_pearson_iff
    Config.trio ⟨7, 0⟩ (rfl : X.length = Config.trio.priceListSize)
    (rfl : device.memory[0]? = _) (rfl : device.memory[1]? = _)
  exact ⟨hagree, sums, device', hrun, hiff.mpr hagree⟩

/-- On two constant windows of price 1 the code has `fenzi` -4095, where the
comment has 0. -/
theorem coefficientSingle_fenzi_of_ones :
    let ones : List ℚ := List.replicate 4096 1
    let device : Device ℚ := ⟨[some ones, some ones], [], none⟩
    ∃ sums device', scratchSums ⟨0, 0⟩ .intended 0 1 device =
        .ok sums device' ∧
      sums.fenzi Config.shipped = -4095 ∧ pearsonFenzi ones ones = 0 := by
  intro ones device
  have hsum : ones.sum = 4096 := by
    rw [List.sum_replicate]
    norm_num
  have hdot : (List.zipWith (· * ·) ones ones).sum = 4096 := by
    rw [List.zipWith_self, List.map_replicate, List.sum_replicate]
    norm_num
  have hlength : ones.length = 4096 := List.length_replicate
  have hsize : (Config.shipped.priceListSize : ℚ) = 4096 := rfl
  refine ⟨_, _, scratchSums_apply (Launches.intended_computes ones ones)
    (rfl : device.memory[0]? = _) (rfl : device.memory[1]? = _), ?_, ?_⟩
  · rw [Sums.fenzi, hsize]
    simp only [Sums.intended, hsum, hdot]
    norm_num
  · rw [pearsonFenzi, hsum, hdot, hlength]
    norm_num

/-! ## Where the quotient is defined -/

section Windows

variable {K : Type} [IntCast K]

/-- A window as the kernels read it. -/
def floatWindow (K : Type) [IntCast K] (window : List Int32) : List K :=
  window.map fun price => (price.toInt : K)

theorem convertWindow_eq
    {cfg : Config} {q_a : List Int32} (hlength : cfg.priceListSize ≤ q_a.length)
    (junk : Junk K) :
    convertWindow cfg junk q_a =
      .ok (floatWindow K (q_a.take cfg.priceListSize)) := by
  have hread : ∀ c ∈ List.range cfg.priceListSize,
      (do
        let price ← readAt q_a c
        return (price.toInt : K) : Checked K) =
      .ok ((q_a.getD c 0).toInt : K) := by
    intro c hc
    rw [List.mem_range] at hc
    have hcq : c < q_a.length := by omega
    rw [readAt_of_lt hcq, List.getD_eq_getElem _ _ hcq]
    rfl
  have hlt : ∀ c ∈ List.range cfg.priceListSize,
      c < (List.replicate cfg.priceListSize junk.cell).length := by
    intro c hc
    rw [List.length_replicate]
    exact List.mem_range.mp hc
  obtain ⟨filled, hrun, hfilled, hcells⟩ := foldlM_writeAt hread hlt
  rw [List.length_replicate] at hfilled
  have heq : filled = floatWindow K (q_a.take cfg.priceListSize) := by
    apply List.ext_getElem
    · rw [hfilled, floatWindow, List.length_map, List.length_take]
      omega
    · intro c hc hc'
      have hcq : c < q_a.length := by omega
      have hcell := hcells c
      rw [if_pos (List.mem_range.mpr (hfilled ▸ hc)),
        List.getElem?_eq_getElem hc, List.getD_eq_getElem _ _ hcq,
        Option.some.injEq] at hcell
      rw [hcell]
      simp only [floatWindow, List.getElem_map, List.getElem_take]
  rw [← heq, ← hrun, convertWindow]
  congr 1
  funext a_c c
  cases readAt q_a c <;> rfl

end Windows

section Prices

variable {K : Type} [Field K]

def closeSum (window : List Int32) : ℤ :=
  (window.map Int32.toInt).sum

def closeDot (x y : List Int32) : ℤ :=
  (List.zipWith (fun a b => a.toInt * b.toInt) x y).sum

theorem sum_floatWindow (window : List Int32) :
    (floatWindow K window).sum = (closeSum window : K) := by
  rw [floatWindow, closeSum, Int.cast_list_sum, List.map_map]
  rfl

theorem dot_floatWindow (x y : List Int32) :
    (List.zipWith (· * ·) (floatWindow K x) (floatWindow K y)).sum =
      (closeDot x y : K) := by
  rw [floatWindow, floatWindow, closeDot, Int.cast_list_sum,
    List.map_zipWith, List.zipWith_map]
  simp only [Int.cast_mul]

theorem intended_fenzi_eq (cfg : Config) (x y : List Int32) :
    (Sums.intended (floatWindow K x) (floatWindow K y)).fenzi cfg =
      ((closeDot x y - closeSum x * closeSum y : ℤ) : K) /
        cfg.priceListSize := by
  rw [Sums.fenzi]
  simp only [Sums.intended, sum_floatWindow, dot_floatWindow]
  push_cast
  rfl

variable [LinearOrder K] [IsStrictOrderedRing K]

/-- The sums of both windows lie strictly between `0` and `ARRAY_LENGTH`, or
both outside of these bounds, and the product of the windows is close enough
to the product of their sums. -/
def QuotientBounded (cfg : Config) (x y : List Int32) : Prop :=
  ((0 < closeSum x ∧ closeSum x < cfg.priceListSize) ∧
        (0 < closeSum y ∧ closeSum y < cfg.priceListSize) ∨
      (closeSum x < 0 ∨ (cfg.priceListSize : ℤ) < closeSum x) ∧
        (closeSum y < 0 ∨ (cfg.priceListSize : ℤ) < closeSum y)) ∧
    (closeDot x y - closeSum x * closeSum y) ^ 2 ≤
      closeSum x * (cfg.priceListSize - closeSum x) *
        (closeSum y * (cfg.priceListSize - closeSum y))

theorem mul_sub_pos_iff {n s : ℤ} (hn : 0 < n) :
    0 < s * (n - s) ↔ 0 < s ∧ s < n := by
  rw [mul_pos_iff]
  omega

theorem mul_sub_neg_iff {n s : ℤ} (hn : 0 < n) :
    s * (n - s) < 0 ↔ s < 0 ∨ n < s := by
  rw [mul_neg_iff]
  omega

theorem intended_radicand_eq (cfg : Config) (x y : List Int32) :
    (Sums.intended (floatWindow K x) (floatWindow K y)).radicand cfg =
      ((closeSum x * (cfg.priceListSize - closeSum x) *
        (closeSum y * (cfg.priceListSize - closeSum y)) : ℤ) : K) /
          (cfg.priceListSize : K) ^ 2 := by
  have hne : (cfg.priceListSize : K) ≠ 0 :=
    Nat.cast_ne_zero.mpr cfg.priceListSize_pos.ne'
  rw [Sums.radicand]
  simp only [Sums.intended, sum_floatWindow]
  push_cast
  field_simp

theorem intended_quotientBounded_iff (cfg : Config) (x y : List Int32) :
    (0 < (Sums.intended (floatWindow K x) (floatWindow K y)).radicand cfg ∧
        (Sums.intended (floatWindow K x) (floatWindow K y)).fenzi cfg ^ 2 ≤
          (Sums.intended (floatWindow K x) (floatWindow K y)).radicand cfg) ↔
      QuotientBounded cfg x y := by
  have hn : (0 : ℤ) < cfg.priceListSize :=
    Int.natCast_pos.mpr cfg.priceListSize_pos
  have hsquare : (0 : K) < (cfg.priceListSize : K) ^ 2 :=
    pow_pos (Nat.cast_pos.mpr cfg.priceListSize_pos) 2
  rw [intended_radicand_eq, intended_fenzi_eq, div_pow,
    div_pos_iff_of_pos_right hsquare, div_le_div_iff_of_pos_right hsquare,
    Int.cast_pos, ← Int.cast_pow, Int.cast_le, mul_pos_iff,
    mul_sub_pos_iff hn, mul_sub_pos_iff hn, mul_sub_neg_iff hn,
    mul_sub_neg_iff hn, QuotientBounded]

/-- For windows of `ARRAY_LENGTH` prices and intended totals, in exact
arithmetic, the radicand is positive and bounds the square of `fenzi` exactly where `QuotientBounded`
holds. -/
theorem coefficient_defined_iff
    (cfg : Config) (junk : Junk K) {x y : List Int32}
    (hx : x.length = cfg.priceListSize) (hy : y.length = cfg.priceListSize) :
    ∃ X Y : List K, convertWindow cfg junk x = .ok X ∧
      convertWindow cfg junk y = .ok Y ∧
      ∀ (device : Device K) (dev_a dev_b : ℕ),
        device.memory[dev_a]? = some (some X) →
        device.memory[dev_b]? = some (some Y) →
        ∃ sums device', scratchSums junk .intended dev_a dev_b device =
            .ok sums device' ∧
          ((0 < sums.radicand cfg ∧
              sums.fenzi cfg ^ 2 ≤ sums.radicand cfg) ↔
            QuotientBounded cfg x y) := by
  refine ⟨floatWindow K x, floatWindow K y, ?_, ?_, ?_⟩
  · rw [convertWindow_eq hx.ge, ← hx, List.take_length]
  · rw [convertWindow_eq hy.ge, ← hy, List.take_length]
  · intro device dev_a dev_b ha hb
    exact ⟨_, _, scratchSums_apply (Launches.intended_computes _ _) ha hb,
      intended_quotientBounded_iff cfg x y⟩

end Prices

/-- Two windows of four prices each, with sums above `ARRAY_LENGTH`. -/
theorem coefficient_defined_trio :
    let x : List Int32 := [9, 7, 8, 6]
    let y : List Int32 := [5, 8, 6, 9]
    QuotientBounded Config.trio x y ∧
      ∃ X Y : List ℚ, convertWindow Config.trio ⟨0, 0⟩ x = .ok X ∧
        convertWindow Config.trio ⟨0, 0⟩ y = .ok Y ∧
        ∃ sums device', scratchSums ⟨0, 0⟩ .intended 0 1
            ⟨[some X, some Y], [], none⟩ = .ok sums device' ∧
          0 < sums.radicand Config.trio ∧
          sums.fenzi Config.trio ^ 2 ≤ sums.radicand Config.trio := by
  intro x y
  have hbounded : QuotientBounded Config.trio x y := by
    unfold QuotientBounded
    decide
  obtain ⟨X, Y, hX, hY, hpair⟩ := coefficient_defined_iff Config.trio
    (⟨0, 0⟩ : Junk ℚ) (rfl : x.length = _) (rfl : y.length = _)
  obtain ⟨sums, device', hrun, hiff⟩ :=
    hpair ⟨[some X, some Y], [], none⟩ 0 1 rfl rfl
  exact ⟨hbounded, X, Y, hX, hY, sums, device', hrun, hiff.mpr hbounded⟩

/-- A client whose close prices are all zero makes the server call
`coefficient` on windows of zeros, and their radicand is zero. -/
theorem coefficient_undefined_on_zeros :
    let quotes : Quotes := fun _ _ => ⟨0, 0, 0, 0⟩
    let payloads := (List.range 4096).flatMap
      (loopPayloads Config.shipped quotes)
    let zeros : List Int32 := List.replicate 4096 0
    (∃ s loop_id data, runPayloads Config.shipped payloads = .ok () s ∧
        (loop_id, data) ∈ coefficientCalls s.trace ∧
        data.find? 0 = some zeros ∧ data.find? 1 = some zeros) ∧
      ∃ X : List ℚ, convertWindow Config.shipped ⟨0, 0⟩ zeros = .ok X ∧
        ∃ sums device', scratchSums ⟨0, 0⟩ .intended 0 1
            ⟨[some X, some X], [], none⟩ = .ok sums device' ∧
          sums.radicand Config.shipped = 0 := by
  intro quotes payloads zeros
  have hsize : Config.shipped.priceListSize = 4096 := rfl
  have hcall := windowsAt_mem_calls Config.shipped quotes
    (by rw [hsize] : Config.shipped.priceListSize ≤ 4095 + 1)
    (by norm_num : 4095 < 4096) (by norm_num)
  have hwindow : ∀ i < Config.shipped.serverStock,
      (windowsAt Config.shipped quotes 4095).find? (Int32.ofNat i) =
        some zeros := by
    intro i hi
    rw [find?_windowsAt _ _ _ hi, hsize, List.map_const', List.length_range]
  have hlength : zeros.length = 4096 := List.length_replicate
  have hconvert := convertWindow_eq (hsize.trans hlength.symm).le
    (⟨0, 0⟩ : Junk ℚ)
  rw [hsize, ← hlength, List.take_length] at hconvert
  have hsum : closeSum zeros = 0 := by
    rw [closeSum, List.map_replicate, List.sum_replicate]
    rfl
  refine ⟨⟨_, _, _, runPayloads_ok _ _, hcall, hwindow 0 (by decide),
    hwindow 1 (by decide)⟩, _, hconvert, _, _,
    scratchSums_apply (Launches.intended_computes _ _) rfl rfl, ?_⟩
  rw [intended_radicand_eq, hsum]
  simp

end StockFeed
