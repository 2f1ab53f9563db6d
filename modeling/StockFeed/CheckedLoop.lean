import StockFeed.Kernel

/-!
# Checked subscripts and loops

The rules by which proofs about kernels and dumps read, write and run loops: a
subscript inside its array succeeds, and a loop is followed along the numbered
states it passes, until its guard fails or its fuel is used up.
-/

namespace StockFeed

/-! ## Subscripts -/

section Subscripts

variable {α : Type}

theorem readAt_of_lt {array : List α} {index : ℕ} (hlt : index < array.length) :
    readAt array index = .ok array[index] := by
  rw [readAt, List.getElem?_eq_getElem hlt]

theorem readAt_of_ge {array : List α} {index : ℕ} (hge : array.length ≤ index) :
    readAt array index = .error .outOfRange := by
  rw [readAt, List.getElem?_eq_none hge]

theorem writeAt_of_lt
    {array : List α} {index : ℕ} (hlt : index < array.length) (value : α) :
    writeAt array index value = .ok (array.set index value) :=
  if_pos hlt

theorem readSigned_ofNat
    {array : List α} {k : ℕ} (hlt : k < array.length) (hint : k < 2 ^ 31) :
    readSigned array (Int32.ofNat k) = .ok array[k] := by
  have hpos : ¬ Int32.ofNat k < 0 := by
    rw [Int32.lt_iff_toInt_lt, Int32.toInt_ofNat_of_lt hint, Int32.toInt_zero]
    omega
  have hindex : (Int32.ofNat k).toNatClampNeg = k := by
    rw [Int32.toNatClampNeg, Int32.toInt_ofNat_of_lt hint, Int.toNat_natCast]
  rw [readSigned, if_neg hpos, hindex, readAt_of_lt hlt]

/-- Every index of `order` is given its value, and the other cells are kept. -/
theorem foldlM_writeAt
    {value : ℕ → Checked α} {v : ℕ → α} {order : List ℕ}
    (hvalue : ∀ t ∈ order, value t = .ok (v t)) {array : List α}
    (hlt : ∀ t ∈ order, t < array.length) :
    ∃ filled, order.foldlM (fun array t => do
        let temp ← value t
        writeAt array t temp) array = .ok filled ∧
      filled.length = array.length ∧
      ∀ t, filled[t]? = if t ∈ order then some (v t) else array[t]? := by
  induction order generalizing array with
  | nil => exact ⟨array, rfl, rfl, by simp⟩
  | cons t rest ih =>
      have ht := hlt t List.mem_cons_self
      have hlt' : ∀ u ∈ rest, u < (array.set t (v t)).length := by
        intro u hu
        rw [List.length_set]
        exact hlt u (List.mem_cons_of_mem t hu)
      obtain ⟨filled, hrun, hlength, hcells⟩ :=
        ih (fun u hu => hvalue u (List.mem_cons_of_mem t hu)) hlt'
      refine ⟨filled, ?_, by rw [hlength, List.length_set], ?_⟩
      · rw [List.foldlM_cons, hvalue t List.mem_cons_self]
        change (writeAt array t (v t) >>= _) = _
        rw [writeAt_of_lt ht]
        exact hrun
      · intro u
        rw [hcells u]
        by_cases heq : u = t
        · subst heq
          simp [List.getElem?_set_self ht]
        · simp [heq, List.getElem?_set_ne (Ne.symm heq)]

end Subscripts

theorem int32_ofNat_lt_iff {n k : ℕ} (hn : n < 2 ^ 31) (hk : k < 2 ^ 31) :
    Int32.ofNat n < Int32.ofNat k ↔ n < k := by
  rw [Int32.lt_iff_toInt_lt, Int32.toInt_ofNat_of_lt hn,
    Int32.toInt_ofNat_of_lt hk]
  omega

/-! ## Loops -/

theorem foldlM_of_ok
    {α β : Type} {f : β → α → Checked β} {g : β → α → β} {items : List α}
    (hstep : ∀ item ∈ items, ∀ acc, f acc item = .ok (g acc item)) (acc : β) :
    items.foldlM f acc = .ok (items.foldl g acc) := by
  induction items generalizing acc with
  | nil => rfl
  | cons item rest ih =>
      rw [List.foldlM_cons, hstep item List.mem_cons_self, List.foldl_cons]
      exact ih (fun other hother =>
        hstep other (List.mem_cons_of_mem item hother)) (g acc item)

section Loops

variable {α : Type} {guard : α → Bool} {body : α → Checked α}

theorem whileLoop_of_not_guard
    {s : α} (hguard : guard s = false) (body : α → Checked α) (fuel : ℕ) :
    whileLoop guard body fuel s = .ok s := by
  cases fuel with
  | zero => simp [whileLoop, hguard]
  | succ fuel => simp [whileLoop, hguard]

theorem whileLoop_of_guard
    {s t : α} (hguard : guard s = true) (hbody : body s = .ok t) (fuel : ℕ) :
    whileLoop guard body (fuel + 1) s = whileLoop guard body fuel t := by
  rw [whileLoop, if_pos hguard, hbody]
  rfl

variable {states : ℕ → α} (hbody : ∀ k, body (states k) = .ok (states (k + 1)))

include hbody

/-- A loop whose guard holds `m` times spends that much fuel. -/
theorem whileLoop_advance
    {m : ℕ} (hguard : ∀ k < m, guard (states k) = true) (fuel : ℕ) :
    whileLoop guard body (m + fuel) (states 0) =
      whileLoop guard body fuel (states m) := by
  induction m generalizing fuel with
  | zero => rw [Nat.zero_add]
  | succ m ih =>
      have hfirst : ∀ k < m, guard (states k) = true := by
        intro k hk
        exact hguard k (hk.trans m.lt_succ_self)
      rw [Nat.add_assoc, Nat.add_comm 1, ih hfirst,
        whileLoop_of_guard (hguard m m.lt_succ_self) (hbody m)]

/-- A loop whose guard never fails uses up any amount of fuel. -/
theorem whileLoop_outOfFuel
    (hguard : ∀ k, guard (states k) = true) (fuel : ℕ) :
    whileLoop guard body fuel (states 0) = .error .outOfFuel := by
  have hrun := whileLoop_advance hbody (fun k (_ : k < fuel) => hguard k) 0
  rw [Nat.add_zero] at hrun
  rw [hrun, whileLoop, if_pos (hguard fuel)]

/-- Fuel is all a loop with such states can lack. -/
theorem whileLoop_ok_or_outOfFuel (fuel k : ℕ) :
    (∃ last, whileLoop guard body fuel (states k) = .ok last) ∨
      whileLoop guard body fuel (states k) = .error .outOfFuel := by
  induction fuel generalizing k with
  | zero =>
      rw [whileLoop]
      split_ifs with hguard
      · exact Or.inr rfl
      · exact Or.inl ⟨states k, rfl⟩
  | succ fuel ih =>
      by_cases hguard : guard (states k) = true
      · rw [whileLoop_of_guard hguard (hbody k)]
        exact ih (k + 1)
      · rw [whileLoop_of_not_guard (Bool.eq_false_iff.mpr hguard)]
        exact Or.inl ⟨states k, rfl⟩

end Loops

end StockFeed
