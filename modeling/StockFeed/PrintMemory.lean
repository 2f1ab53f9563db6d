import StockFeed.CheckedLoop
import StockFeed.StridePartition

/-!
# The memory dump

`print_memory` of `common/global.h` prints a buffer in rows of sixteen bytes.
All its counters are unsigned and wrap.  The guard of the loop over the rows
tests `i + 1`, where `i` is the last index of the row before, and `0` ahead of
the first row.

The loop is followed row by row, along states which are known for every number
of rows.  From them one reads off when the dump is the buffer: the buffer must
not have a single byte, whose row is not even begun, and its last row must not
end at the largest index, where `i + 1` wraps and the loop starts over.
-/

namespace StockFeed

/-! ## The function -/

/-- One call of `printf`: a fixed text, or a byte with `%02X`. -/
inductive Printed
  | text (s : String)
  | hex (byte : UInt8)
  deriving DecidableEq, Repr

structure DumpState where
  row : UInt32
  i : UInt32
  printed : List Printed

/-- `(i + 1) < length`, the guard of the loop over `row`. -/
def rowFollows (length : UInt32) (s : DumpState) : Bool :=
  s.i + 1 < length

/-- The body of the loop over `col`. -/
def printColumn (start : List UInt8) (length : UInt32) (s : DumpState)
    (col : UInt32) : Checked DumpState := do
  let i := s.row * 16 + col
  let gap := if col = 8 then [.text " "] else []
  let cell ← (if i < length then Printed.hex <$> readAt start i.toNat
    else pure (.text "  "))
  return { s with i := i, printed := s.printed ++ gap ++ [cell, .text " "] }

/-- The body of the loop over `row`, with its increment. -/
def printRow (start : List UInt8) (length : UInt32) (s : DumpState) :
    Checked DumpState := do
  let s ← ((List.range 16).map UInt32.ofNat).foldlM (printColumn start length) s
  return { s with
    row := s.row + 1
    printed := s.printed ++ [.text " ", .text "\n"] }

/-- What `print_memory` has printed when it returns within `fuel` rows. -/
def printMemory (start : List UInt8) (length : UInt32) (fuel : ℕ) :
    Checked (List Printed) :=
  DumpState.printed <$> whileLoop (rowFollows length) (printRow start length)
    fuel ⟨0, 0, []⟩

/-- The bytes among what was printed. -/
def printedBytes (printed : List Printed) : List UInt8 :=
  printed.filterMap fun
    | .text _ => none
    | .hex byte => some byte

/-! ## One row -/

/-- What is printed in one column of the row which starts at `row * 16`. -/
def columnText (start : List UInt8) (row col : UInt32) : List Printed :=
  (if col = 8 then [.text " "] else []) ++
    [match start[(row * 16 + col).toNat]? with
      | some byte => .hex byte
      | none => .text "  ",
     .text " "]

def rowText (start : List UInt8) (row : UInt32) : List Printed :=
  ((List.range 16).map UInt32.ofNat).flatMap (columnText start row) ++
    [.text " ", .text "\n"]

theorem printedBytes_append (first second : List Printed) :
    printedBytes (first ++ second) =
      printedBytes first ++ printedBytes second :=
  List.filterMap_append

theorem printedBytes_flatMap {α : Type} (items : List α)
    (f : α → List Printed) :
    printedBytes (items.flatMap f) =
      items.flatMap fun item => printedBytes (f item) := by
  rw [printedBytes, List.filterMap_flatMap]
  rfl

theorem printedBytes_columnText (start : List UInt8) (row col : UInt32) :
    printedBytes (columnText start row col) =
      (start[(row * 16 + col).toNat]?).toList := by
  rw [columnText, printedBytes_append]
  have hgap : printedBytes (if col = 8 then [.text " "] else []) = [] := by
    split_ifs <;> rfl
  rw [hgap]
  cases start[(row * 16 + col).toNat]? <;> rfl

theorem printedBytes_rowText (start : List UInt8) (row : UInt32) :
    printedBytes (rowText start row) =
      (List.range 16).flatMap fun col =>
        (start[(row * 16 + UInt32.ofNat col).toNat]?).toList := by
  rw [rowText, printedBytes_append, printedBytes_flatMap, List.flatMap_map]
  simp only [printedBytes_columnText]
  exact List.append_nil _

section Rows

variable {start : List UInt8} {length : UInt32}
  (hlength : start.length = length.toNat)

include hlength

theorem printColumn_eq (s : DumpState) (col : UInt32) :
    printColumn start length s col =
      .ok ⟨s.row, s.row * 16 + col,
        s.printed ++ columnText start s.row col⟩ := by
  have hinside : s.row * 16 + col < length ↔
      (s.row * 16 + col).toNat < start.length := by
    rw [hlength, UInt32.lt_iff_toNat_lt]
  rw [printColumn, columnText, ← List.append_assoc]
  by_cases hlt : (s.row * 16 + col).toNat < start.length
  · rw [if_pos (hinside.mpr hlt), readAt_of_lt hlt,
      List.getElem?_eq_getElem hlt]
    rfl
  · rw [if_neg (mt hinside.mp hlt), List.getElem?_eq_none (by omega)]
    rfl

theorem foldlM_printColumn (cols : List UInt32) (s : DumpState) :
    cols.foldlM (printColumn start length) s =
      .ok ⟨s.row, (cols.map (s.row * 16 + ·)).getLastD s.i,
        s.printed ++ cols.flatMap (columnText start s.row)⟩ := by
  induction cols generalizing s with
  | nil =>
      rw [List.flatMap_nil, List.append_nil]
      rfl
  | cons col rest ih =>
      rw [List.foldlM_cons, printColumn_eq hlength, List.map_cons,
        List.getLastD_cons, List.flatMap_cons, ← List.append_assoc]
      exact ih _

theorem printRow_eq (s : DumpState) :
    printRow start length s =
      .ok ⟨s.row + 1, s.row * 16 + 15, s.printed ++ rowText start s.row⟩ := by
  rw [printRow, foldlM_printColumn hlength, rowText, ← List.append_assoc]
  rfl

end Rows

/-! ## The loop over row -/

/-- The state when `k` rows are done.  Ahead of the first row the truncated
difference is the initial `i = 0`. -/
def dumpAfter (start : List UInt8) (k : ℕ) : DumpState where
  row := UInt32.ofNat k
  i := UInt32.ofNat (16 * k - 1)
  printed := (List.range k).flatMap fun r => rowText start (UInt32.ofNat r)

theorem printRow_dumpAfter
    {start : List UInt8} {length : UInt32}
    (hlength : start.length = length.toNat) (k : ℕ) :
    printRow start length (dumpAfter start k) =
      .ok (dumpAfter start (k + 1)) := by
  have hlast : 16 * (k + 1) - 1 = k * 16 + 15 := by omega
  rw [printRow_eq hlength]
  simp only [dumpAfter, List.range_succ, List.flatMap_append,
    List.flatMap_singleton, hlast, UInt32.ofNat_add, UInt32.ofNat_mul]
  rfl

/-- The guard after `k` rows, with the wrap of `i + 1` spelt out. -/
theorem rowFollows_dumpAfter (start : List UInt8) (length : UInt32) (k : ℕ) :
    rowFollows length (dumpAfter start k) =
      decide ((if k = 0 then 1 else 16 * k % 2 ^ 32) < length.toNat) := by
  have hnext : ((dumpAfter start k).i + 1).toNat =
      if k = 0 then 1 else 16 * k % 2 ^ 32 := by
    rw [UInt32.toNat_add, dumpAfter, UInt32.toNat_ofNat']
    cases k with
    | zero => rfl
    | succ k =>
        rw [if_neg k.succ_ne_zero]
        change ((16 * (k + 1) - 1) % 2 ^ 32 + 1) % 2 ^ 32 = _
        omega
  simp only [rowFollows, UInt32.lt_iff_toNat_lt, hnext]

theorem flatMap_getElem?_range {α : Type} (array : List α) (n : ℕ) :
    ((List.range n).flatMap fun k => (array[k]?).toList) = array.take n := by
  induction n with
  | zero => rfl
  | succ n ih =>
      rw [List.range_succ, List.flatMap_append, ih, List.flatMap_singleton,
        List.take_add_one]

/-- Rows without wrapping: the first `16 * k` bytes of the buffer. -/
theorem printedBytes_dumpAfter
    (start : List UInt8) {k : ℕ} (hk : 16 * k ≤ 2 ^ 32) :
    printedBytes (dumpAfter start k).printed = start.take (16 * k) := by
  have hindex : ∀ r < k, ∀ col < 16,
      (UInt32.ofNat r * 16 + UInt32.ofNat col).toNat = col + r * 16 := by
    intro r hr col hcol
    rw [UInt32.toNat_add, UInt32.toNat_mul, UInt32.toNat_ofNat',
      UInt32.toNat_ofNat']
    change (r % 2 ^ 32 * 16 % 2 ^ 32 + col % 2 ^ 32) % 2 ^ 32 = _
    omega
  calc printedBytes (dumpAfter start k).printed
      = (List.range k).flatMap fun r => (List.range 16).flatMap fun col =>
          (start[col + r * 16]?).toList := by
        rw [dumpAfter, printedBytes_flatMap]
        apply List.flatMap_congr
        intro r hr
        rw [printedBytes_rowText]
        apply List.flatMap_congr
        intro col hcol
        rw [hindex r (List.mem_range.mp hr) col (List.mem_range.mp hcol)]
    _ = (List.range (16 * k)).flatMap fun i => (start[i]?).toList := by
        rw [← StridePartition.flatMap_rows, List.flatMap_assoc]
        simp only [List.flatMap_map]
    _ = start.take (16 * k) := flatMap_getElem?_range start (16 * k)

/-! ## The whole dump -/

/-- The function returns, and what it has printed are the bytes of the buffer,
each once and in order.  Every read was one inside the buffer. -/
def DumpsExactly (start : List UInt8) (length : UInt32) : Prop :=
  ∃ fuel printed, printMemory start length fuel = .ok printed ∧
    printedBytes printed = start

section Dump

variable {start : List UInt8} {length : UInt32}

theorem printMemory_eq (fuel : ℕ) :
    printMemory start length fuel =
      DumpState.printed <$> whileLoop (rowFollows length)
        (printRow start length) fuel (dumpAfter start 0) := rfl

theorem printMemory_of_le_one (hle : length.toNat ≤ 1) (fuel : ℕ) :
    printMemory start length fuel = .ok [] := by
  have hguard : rowFollows length (dumpAfter start 0) = false := by
    rw [rowFollows_dumpAfter, if_pos rfl, decide_eq_false_iff_not]
    omega
  rw [printMemory_eq, whileLoop_of_not_guard hguard]
  rfl

variable (hlength : start.length = length.toNat)

include hlength

theorem printMemory_ne_outOfRange (fuel : ℕ) :
    printMemory start length fuel ≠ .error .outOfRange := by
  rw [printMemory_eq]
  rcases whileLoop_ok_or_outOfFuel (printRow_dumpAfter hlength) fuel 0 with
    ⟨last, hrun⟩ | hrun
  · rw [hrun]
    rintro ⟨⟩
  · rw [hrun]
    rintro ⟨⟩

/-- Between two bytes and the end of the index range, the loop ends after the
row which holds the last byte. -/
theorem printMemory_of_fits
    (htwo : 2 ≤ length.toNat) (hfits : length.toNat ≤ 2 ^ 32 - 16) :
    printMemory start length ((length.toNat + 15) / 16) =
      .ok (dumpAfter start ((length.toNat + 15) / 16)).printed := by
  have hguard : ∀ k < (length.toNat + 15) / 16,
      rowFollows length (dumpAfter start k) = true := by
    intro k hk
    rw [rowFollows_dumpAfter, decide_eq_true_iff]
    split_ifs
    · omega
    · omega
  have hend : rowFollows length
      (dumpAfter start ((length.toNat + 15) / 16)) = false := by
    rw [rowFollows_dumpAfter, decide_eq_false_iff_not, if_neg (by omega)]
    omega
  have hrun := whileLoop_advance (printRow_dumpAfter hlength) hguard 0
  rw [Nat.add_zero, whileLoop_of_not_guard hend] at hrun
  rw [printMemory_eq, hrun]
  rfl

/-- A buffer which reaches into the last row of the index range is printed
over and over: `i + 1` is a multiple of sixteen, wrapped, at every test. -/
theorem printMemory_of_reaches_last_row
    (hlast : 2 ^ 32 - 16 < length.toNat) (fuel : ℕ) :
    printMemory start length fuel = .error .outOfFuel := by
  have hguard : ∀ k, rowFollows length (dumpAfter start k) = true := by
    intro k
    rw [rowFollows_dumpAfter, decide_eq_true_iff]
    split_ifs
    · omega
    · omega
  rw [printMemory_eq,
    whileLoop_outOfFuel (printRow_dumpAfter hlength) hguard fuel]
  rfl

/-- `print_memory` never reads outside of its buffer, and it dumps exactly the
buffer unless this is a single byte or reaches into the last row of indices. -/
theorem print_memory_dumps_iff :
    (∀ fuel, printMemory start length fuel ≠ .error .outOfRange) ∧
      (DumpsExactly start length ↔
        length ≠ 1 ∧ length.toNat ≤ 2 ^ 32 - 16) := by
  have hone : length = 1 ↔ length.toNat = 1 := UInt32.toNat_inj.symm
  refine ⟨printMemory_ne_outOfRange hlength, ?_⟩
  constructor
  · rintro ⟨fuel, printed, hrun, hbytes⟩
    constructor
    · intro hsingle
      rw [printMemory_of_le_one (hone.mp hsingle).le] at hrun
      cases hrun
      rw [← hbytes, hsingle] at hlength
      exact absurd hlength (by decide)
    · by_contra hlast
      rw [printMemory_of_reaches_last_row hlength (by omega)] at hrun
      cases hrun
  · rintro ⟨hsingle, hfits⟩
    rw [Ne, hone] at hsingle
    rcases Nat.lt_or_ge length.toNat 2 with hempty | htwo
    · have hnil : start = [] := by
        apply List.eq_nil_of_length_eq_zero
        omega
      refine ⟨0, [], printMemory_of_le_one (by omega) 0, ?_⟩
      rw [hnil]
      rfl
    · refine ⟨_, _, printMemory_of_fits hlength htwo hfits, ?_⟩
      rw [printedBytes_dumpAfter start (by omega)]
      exact List.take_of_length_le (by omega)

end Dump

/-- Seventeen bytes go into a second row. -/
theorem print_memory_dumps_seventeen :
    (List.replicate 17 (255 : UInt8)).length = (17 : UInt32).toNat ∧
      DumpsExactly (List.replicate 17 255) 17 := by
  have hlength : (List.replicate 17 (255 : UInt8)).length =
      (17 : UInt32).toNat := rfl
  exact ⟨hlength, (print_memory_dumps_iff hlength).2.mpr (by decide)⟩

/-- The guard is false ahead of the first row of a buffer with one byte. -/
theorem print_memory_omits_single_byte :
    [(7 : UInt8)].length = (1 : UInt32).toNat ∧
      (∀ fuel, printMemory [7] 1 fuel = .ok []) ∧ ¬ DumpsExactly [7] 1 := by
  have hnothing : ∀ fuel, printMemory [7] 1 fuel = .ok [] :=
    fun fuel => printMemory_of_le_one (by decide) fuel
  refine ⟨rfl, hnothing, ?_⟩
  rintro ⟨fuel, printed, hrun, hbytes⟩
  rw [hnothing] at hrun
  cases hrun
  exact absurd hbytes (by decide)

end StockFeed
