import StockFeed.CheckedLoop
import StockFeed.StridePartition
import Mathlib.Data.List.GetD

/-!
# The loop over tid

Thread `threadIdx` of block `blockIdx` starts at
`threadIdx + blockIdx * blockDim` and goes on in steps of
`blockDim * gridDim`, the number of all threads.  The loop is stated once, for
whatever it does at a position: `strideSum` adds up a term there, and
`strideVisits` only notes the position.

The main result is that the loops of a whole grid end, visit every index of the
arrays once and none besides, and therefore store parts which add up to the
whole sum.
-/

namespace StockFeed

open StridePartition

/-! ## The loop -/

section Loop

variable {σ : Type}

/-- `while(tid<ARRAY_LENGTH)` with `visit` in place of the first statement. -/
def strideLoop (arrayLength : ℕ) (stride : Int32)
    (visit : σ → Int32 → Checked σ) (start : Int32) (s : σ) : Checked σ :=
  Prod.snd <$> whileLoop (fun s => s.1 < Int32.ofNat arrayLength)
    (fun s => do
      let next ← visit s.2 s.1
      return (s.1 + stride, next))
    arrayLength (start, s)

/-- The values of `tid` at which the loop of a thread is entered, in order. -/
def strideVisits (arrayLength : ℕ) (stride start : Int32) :
    Checked (List Int32) :=
  strideLoop arrayLength stride (fun tids tid => return tids ++ [tid]) start []

theorem strideSum_eq_strideLoop
    {K : Type} [Zero K] [Add K] (arrayLength : ℕ) (stride : Int32)
    (term : Int32 → Checked K) (start : Int32) :
    strideSum arrayLength stride term start =
      strideLoop arrayLength stride (fun temp tid => do
        let value ← term tid
        return temp + value) start 0 := by
  simp only [strideSum, strideLoop, bind_assoc, pure_bind]

variable {arrayLength stride : ℕ} (hstride : 0 < stride)
  (hint : arrayLength + stride < 2 ^ 31)

include hstride hint

theorem whileLoop_stride
    (visit : σ → Int32 → Checked σ) {fuel n : ℕ} (hn : n < arrayLength + stride)
    (hfuel : arrayLength ≤ n + fuel) (s : σ) :
    Prod.snd <$> whileLoop (fun s => s.1 < Int32.ofNat arrayLength)
        (fun s => do
          let next ← visit s.2 s.1
          return (s.1 + Int32.ofNat stride, next))
        fuel (Int32.ofNat n, s) =
      (positions arrayLength stride n).foldlM
        (fun s k => visit s (Int32.ofNat k)) s := by
  have hguard := int32_ofNat_lt_iff (by omega : n < 2 ^ 31)
    (by omega : arrayLength < 2 ^ 31)
  induction fuel generalizing n s with
  | zero =>
      rw [positions_of_ge hstride (by omega), whileLoop_of_not_guard]
      · rfl
      · exact decide_eq_false (mt hguard.mp (by omega))
  | succ fuel ih =>
      by_cases hlt : n < arrayLength
      · rw [positions_of_lt hstride hlt, List.foldlM_cons, whileLoop,
          if_pos (decide_eq_true (hguard.mpr hlt))]
        cases visit s (Int32.ofNat n) with
        | error halt => rfl
        | ok next =>
            have hrest := ih (by omega : n + stride < arrayLength + stride)
              (by omega) next (int32_ofNat_lt_iff (by omega) (by omega))
            rw [Int32.ofNat_add] at hrest
            exact hrest
      · rw [positions_of_ge hstride (by omega), whileLoop_of_not_guard]
        · rfl
        · exact decide_eq_false (mt hguard.mp hlt)

/-- The loop of one thread is a fold over the positions of its class. -/
theorem strideLoop_eq_foldlM
    (visit : σ → Int32 → Checked σ) {start : ℕ} (hstart : start < stride)
    (s : σ) :
    strideLoop arrayLength (Int32.ofNat stride) visit (Int32.ofNat start) s =
      (positions arrayLength stride start).foldlM
        (fun s k => visit s (Int32.ofNat k)) s :=
  whileLoop_stride hstride hint visit (by omega)
    (Nat.le_add_left arrayLength start) s

theorem strideVisits_eq {start : ℕ} (hstart : start < stride) :
    strideVisits arrayLength (Int32.ofNat stride) (Int32.ofNat start) =
      .ok ((positions arrayLength stride start).map Int32.ofNat) := by
  rw [strideVisits, strideLoop_eq_foldlM hstride hint _ hstart,
    List.foldlM_pure, List.foldl_append_eq_append, List.nil_append,
    ← List.flatMap_def, ← List.map_eq_flatMap]
  rfl

/-- A thread adds up its terms from left to right. -/
theorem strideSum_eq_foldl
    {K : Type} [Zero K] [Add K] {term : Int32 → Checked K} {f : ℕ → K}
    (hterm : ∀ k < arrayLength, term (Int32.ofNat k) = .ok (f k))
    {start : ℕ} (hstart : start < stride) :
    strideSum arrayLength (Int32.ofNat stride) term (Int32.ofNat start) =
      .ok ((positions arrayLength stride start).foldl
        (fun temp k => temp + f k) 0) := by
  have hstep : ∀ k ∈ positions arrayLength stride start, ∀ temp : K,
      (do
        let value ← term (Int32.ofNat k)
        return temp + value) = (.ok (temp + f k) : Checked K) := by
    intro k hk temp
    rw [hterm k ((mem_positions hstride).mp hk).1]
    rfl
  rw [strideSum_eq_strideLoop, strideLoop_eq_foldlM hstride hint _ hstart,
    foldlM_of_ok hstep]

theorem strideSum_eq_sum
    {K : Type} [CommRing K] {term : Int32 → Checked K} {f : ℕ → K}
    (hterm : ∀ k < arrayLength, term (Int32.ofNat k) = .ok (f k))
    {start : ℕ} (hstart : start < stride) :
    strideSum arrayLength (Int32.ofNat stride) term (Int32.ofNat start) =
      .ok ((positions arrayLength stride start).map f).sum := by
  rw [strideSum_eq_foldl hstride hint hterm hstart, List.sum_eq_foldl,
    List.foldl_map]

end Loop

/-! ## Terms -/

section Terms

variable {K : Type} [Zero K]

/-- The terms of `sum`. -/
theorem readSigned_term
    {input : List K} (hint : input.length < 2 ^ 31) :
    ∀ k < input.length,
      readSigned input (Int32.ofNat k) = .ok (input.getD k 0) := by
  intro k hk
  rw [readSigned_ofNat hk (hk.trans hint), List.getD_eq_getElem _ _ hk]

variable [Mul K]

/-- The terms of `dot`, and of `sumSquare` with one input for both. -/
theorem product_term
    {input1 input2 : List K} (hlength : input1.length = input2.length)
    (hint : input1.length < 2 ^ 31) :
    ∀ k < (List.zipWith (· * ·) input1 input2).length,
      (do
        let x ← readSigned input1 (Int32.ofNat k)
        let y ← readSigned input2 (Int32.ofNat k)
        return x * y) =
        (.ok ((List.zipWith (· * ·) input1 input2).getD k 0) : Checked K) := by
  intro k hk
  have hk1 : k < input1.length := by
    rw [List.length_zipWith] at hk
    omega
  rw [readSigned_ofNat hk1 (hk1.trans hint),
    readSigned_ofNat (hlength ▸ hk1) (hk1.trans hint),
    List.getD_eq_getElem _ _ hk, List.getElem_zipWith]
  rfl

end Terms

/-! ## The whole grid -/

/-- The loops of all threads end, and every index of the arrays is visited once
between them. -/
def VisitsEachOnce (arrayLength gridDim blockDim : ℕ) : Prop :=
  ∃ visits : ℕ → ℕ → List ℕ,
    (∀ blockIdx < gridDim, ∀ threadIdx < blockDim,
      strideVisits arrayLength (Int32.ofNat (blockDim * gridDim))
          (Int32.ofNat (threadIdx + blockIdx * blockDim)) =
        .ok ((visits blockIdx threadIdx).map Int32.ofNat)) ∧
    ((List.range gridDim).flatMap fun blockIdx =>
      (List.range blockDim).flatMap (visits blockIdx)).Perm
        (List.range arrayLength)

section Grid

variable {K : Type} [CommRing K]

/-- Every thread ends its loop with some `temp`, which is what its cell of a
`cache` with enough cells holds before the first `__syncthreads()`, and these
add up to `total`. -/
def StoresAddUp (arrayLength gridDim blockDim : ℕ) (term : Int32 → Checked K)
    (total : K) : Prop :=
  ∃ temp : ℕ → ℕ → K,
    (∀ blockIdx < gridDim, ∀ threadIdx < blockDim,
      strideSum arrayLength (Int32.ofNat (blockDim * gridDim)) term
          (Int32.ofNat (threadIdx + blockIdx * blockDim)) =
        .ok (temp blockIdx threadIdx)) ∧
    (∀ blockIdx < gridDim, ∀ order, order.Perm (List.range blockDim) →
      ∀ cache : List K, blockDim ≤ cache.length →
        ∃ filled,
          fillCache arrayLength gridDim blockDim blockIdx term order cache =
            .ok filled ∧
          ∀ threadIdx < blockDim,
            filled[threadIdx]? = some (temp blockIdx threadIdx)) ∧
    ∑ blockIdx ∈ Finset.range gridDim, ∑ threadIdx ∈ Finset.range blockDim,
      temp blockIdx threadIdx = total

theorem start_lt_stride
    {gridDim blockDim blockIdx threadIdx : ℕ} (hblockIdx : blockIdx < gridDim)
    (hthreadIdx : threadIdx < blockDim) :
    threadIdx + blockIdx * blockDim < blockDim * gridDim := by
  calc threadIdx + blockIdx * blockDim
      < blockDim + blockIdx * blockDim := by omega
    _ = blockDim * (blockIdx + 1) := by ring
    _ ≤ blockDim * gridDim := Nat.mul_le_mul_left _ hblockIdx

theorem sum_getD (terms : List K) :
    ∑ k ∈ Finset.range terms.length, terms.getD k 0 = terms.sum := by
  induction terms using List.reverseRecOn with
  | nil => simp
  | append_singleton terms last ih =>
      rw [List.length_append, List.length_singleton, Finset.sum_range_succ,
        List.sum_append, List.sum_singleton, ← ih,
        List.getD_append_right _ _ _ _ le_rfl]
      congr 1
      · apply Finset.sum_congr rfl
        intro k hk
        exact List.getD_append _ _ _ _ (Finset.mem_range.mp hk)
      · simp

variable {arrayLength gridDim blockDim : ℕ} (hgrid : 1 ≤ gridDim)
  (hblock : 1 ≤ blockDim) (hint : arrayLength + gridDim * blockDim < 2 ^ 31)

include hgrid hblock hint

theorem visitsEachOnce : VisitsEachOnce arrayLength gridDim blockDim := by
  have hstride : 0 < blockDim * gridDim := Nat.mul_pos hblock hgrid
  rw [Nat.mul_comm gridDim] at hint
  refine ⟨fun blockIdx threadIdx => positions arrayLength (blockDim * gridDim)
    (threadIdx + blockIdx * blockDim), ?_, ?_⟩
  · intro blockIdx hblockIdx threadIdx hthreadIdx
    exact strideVisits_eq hstride hint (start_lt_stride hblockIdx hthreadIdx)
  · exact flatMap_rows_positions_perm hgrid hblock arrayLength

theorem storesAddUp
    {terms : List K} (hlength : terms.length = arrayLength)
    {term : Int32 → Checked K}
    (hterm : ∀ k < terms.length,
      term (Int32.ofNat k) = .ok (terms.getD k 0)) :
    StoresAddUp arrayLength gridDim blockDim term terms.sum := by
  subst hlength
  have hstride : 0 < blockDim * gridDim := Nat.mul_pos hblock hgrid
  rw [Nat.mul_comm gridDim] at hint
  have hsum : ∀ blockIdx < gridDim, ∀ threadIdx < blockDim,
      strideSum terms.length (Int32.ofNat (blockDim * gridDim)) term
          (Int32.ofNat (threadIdx + blockIdx * blockDim)) =
        .ok ((positions terms.length (blockDim * gridDim)
          (threadIdx + blockIdx * blockDim)).map fun k => terms.getD k 0).sum :=
    fun blockIdx hblockIdx threadIdx hthreadIdx =>
      strideSum_eq_sum hstride hint hterm
        (start_lt_stride hblockIdx hthreadIdx)
  refine ⟨_, hsum, ?_, ?_⟩
  · intro blockIdx hblockIdx order hperm cache hcache
    have hmem : ∀ t, t ∈ order ↔ t < blockDim := by
      intro t
      rw [hperm.mem_iff, List.mem_range]
    have hlt : ∀ t ∈ order, t < cache.length := by
      intro t ht
      exact ((hmem t).mp ht).trans_le hcache
    obtain ⟨filled, hfill, _, hcells⟩ := foldlM_writeAt
      (fun t ht => hsum blockIdx hblockIdx t ((hmem t).mp ht)) hlt
    refine ⟨filled, hfill, ?_⟩
    intro t ht
    rw [hcells t, if_pos ((hmem t).mpr ht)]
  · rw [sum_rows_positions hgrid hblock, sum_getD]

/-- The grid-stride loops of the three kernels partition their input. -/
theorem grid_stride_partition
    {input1 input2 : List K} (hlength1 : input1.length = arrayLength)
    (hlength2 : input2.length = arrayLength) :
    VisitsEachOnce arrayLength gridDim blockDim ∧
      StoresAddUp arrayLength gridDim blockDim (fun tid => do
          let x ← readSigned input1 tid
          let y ← readSigned input2 tid
          return x * y)
        (List.zipWith (· * ·) input1 input2).sum ∧
      StoresAddUp arrayLength gridDim blockDim (fun tid => do
          let x ← readSigned input1 tid
          let y ← readSigned input1 tid
          return x * y)
        (input1.map fun x => x * x).sum ∧
      StoresAddUp arrayLength gridDim blockDim (readSigned input1)
        input1.sum := by
  have hsmall : input1.length < 2 ^ 31 := by omega
  have hproduct : (List.zipWith (· * ·) input1 input2).length =
      arrayLength := by
    rw [List.length_zipWith, hlength1, hlength2, min_self]
  have hsquare : (List.zipWith (· * ·) input1 input1).length =
      arrayLength := by
    rw [List.length_zipWith, hlength1, min_self]
  refine ⟨visitsEachOnce hgrid hblock hint, ?_, ?_, ?_⟩
  · exact storesAddUp hgrid hblock hint hproduct
      (product_term (hlength1.trans hlength2.symm) hsmall)
  · rw [← List.zipWith_self]
    exact storesAddUp hgrid hblock hint hsquare (product_term rfl hsmall)
  · exact storesAddUp hgrid hblock hint hlength1 (readSigned_term hsmall)

end Grid

/-- Two blocks of two threads and five prices: the first thread goes round
twice and the others once. -/
theorem grid_stride_partition_five :
    1 ≤ 2 ∧ 5 + 2 * 2 < 2 ^ 31 ∧ VisitsEachOnce 5 2 2 ∧
      StoresAddUp 5 2 2 (readSigned ([3, 1, 4, 1, 5] : List ℚ)) 14 := by
  have hpartition := grid_stride_partition (by decide : 1 ≤ 2)
    (by decide : 1 ≤ 2) (by decide : 5 + 2 * 2 < 2 ^ 31)
    (rfl : ([3, 1, 4, 1, 5] : List ℚ).length = 5)
    (rfl : ([3, 1, 4, 1, 5] : List ℚ).length = 5)
  have htotal : ([3, 1, 4, 1, 5] : List ℚ).sum = 14 := by norm_num
  rw [htotal] at hpartition
  exact ⟨by decide, by decide, hpartition.1, hpartition.2.2.2⟩

end StockFeed
