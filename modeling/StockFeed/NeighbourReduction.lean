import Mathlib.Algebra.BigOperators.Intervals
import Mathlib.Algebra.CharZero.Defs
import Mathlib.Tactic

/-!
# Reduction by neighbour additions in an arbitrary order

A row of cells is reduced in place.  One phase lets each of the first `n` cells
absorb its right neighbour, once and in some order; the tree runs the phases
with `2 ^ m`, ..., `2`, `1` cells.  Since a cell reads its neighbour either
before or after the neighbour was changed, the result depends on the orders.

`tree_eq_for_all_orders_iff` says when it does not: exactly when cells `2` to
half the width are zero, and then cell `1` is counted once a phase.  For fixed
orders the result is a sum in which each cell is counted as often as its
`share`.
-/

namespace StockFeed
namespace NeighbourReduction

section Phases

variable {M : Type*} [Add M]

def absorb (cells : ℕ → M) (t : ℕ) : ℕ → M :=
  Function.update cells t (cells t + cells (t + 1))

def phase (cells : ℕ → M) (order : List ℕ) : ℕ → M :=
  order.foldl absorb cells

@[simp] theorem phase_nil (cells : ℕ → M) : phase cells [] = cells := rfl

@[simp] theorem phase_cons (cells : ℕ → M) (t : ℕ) (rest : List ℕ) :
    phase cells (t :: rest) = phase (absorb cells t) rest := rfl

theorem phase_append (cells : ℕ → M) (first second : List ℕ) :
    phase cells (first ++ second) = phase (phase cells first) second :=
  List.foldl_append

@[simp] theorem absorb_self (cells : ℕ → M) (t : ℕ) :
    absorb cells t t = cells t + cells (t + 1) :=
  Function.update_self t _ cells

theorem absorb_of_ne (cells : ℕ → M) {t k : ℕ} (hne : k ≠ t) :
    absorb cells t k = cells k :=
  Function.update_of_ne hne _ cells

theorem phase_of_notMem
    {order : List ℕ} {k : ℕ} (hk : k ∉ order) (cells : ℕ → M) :
    phase cells order k = cells k := by
  induction order generalizing cells with
  | nil => rfl
  | cons t rest ih =>
      rw [List.mem_cons, not_or] at hk
      rw [phase_cons, ih hk.2, absorb_of_ne cells hk.1]

/-! ## The tree -/

/-- Phases with `2 ^ (m - 1)`, ..., `2`, `1` cells; `order n` is the order in
which the first `n` cells take their turn. -/
def tree (order : ℕ → List ℕ) : ℕ → (ℕ → M) → ℕ → M
  | 0, cells => cells
  | m + 1, cells => tree order m (phase cells (order (2 ^ m)))

theorem tree_congr
    {order order' : ℕ → List ℕ} {m : ℕ}
    (hsame : ∀ j < m, order (2 ^ j) = order' (2 ^ j)) (cells : ℕ → M) :
    tree order m cells = tree order' m cells := by
  induction m generalizing cells with
  | zero => rfl
  | succ m ih =>
      rw [tree, tree, hsame m (by omega)]
      exact ih (fun j hj => hsame j (by omega)) _

theorem phase_congr_below
    {n : ℕ} {order : List ℕ} (hlt : ∀ t ∈ order, t + 1 < n)
    {cells cells' : ℕ → M} (hsame : ∀ k < n, cells k = cells' k) :
    ∀ k < n, phase cells order k = phase cells' order k := by
  induction order generalizing cells cells' with
  | nil => exact hsame
  | cons t rest ih =>
      have ht := hlt t List.mem_cons_self
      apply ih fun u hu => hlt u (List.mem_cons_of_mem t hu)
      intro k hk
      by_cases heq : k = t
      · subst heq
        rw [absorb_self, absorb_self, hsame k hk, hsame (k + 1) ht]
      · rw [absorb_of_ne _ heq, absorb_of_ne _ heq, hsame k hk]

/-- A tree with `2 ^ m` cells does not read any others. -/
theorem tree_congr_below
    {order : ℕ → List ℕ} {m : ℕ}
    (hlt : ∀ j < m, ∀ t ∈ order (2 ^ j), t < 2 ^ j)
    {cells cells' : ℕ → M} (hsame : ∀ k < 2 ^ m, cells k = cells' k) :
    tree order m cells 0 = tree order m cells' 0 := by
  induction m generalizing cells cells' with
  | zero => exact hsame 0 (by norm_num)
  | succ m ih =>
      have hdouble : 2 ^ (m + 1) = 2 ^ m + 2 ^ m := by rw [pow_succ, mul_two]
      have hpos : 0 < 2 ^ m := Nat.two_pow_pos m
      have hnext : ∀ t ∈ order (2 ^ m), t + 1 < 2 ^ (m + 1) := by
        intro t ht
        have hactive := hlt m (by omega) t ht
        omega
      have hphase := phase_congr_below hnext hsame
      exact ih (fun j hj => hlt j (by omega)) fun k hk => hphase k (by omega)

end Phases

section Commutative

variable {M : Type*} [AddCommMonoid M]

/-! ## Counting from the right -/

/-- Running the first `n` cells from right to left gathers everything up to
cell `n`. -/
theorem phase_reverse_range
    {n t : ℕ} (ht : t ≤ n) (cells : ℕ → M) :
    phase cells (List.range n).reverse t =
      ∑ k ∈ Finset.Ico t (n + 1), cells k := by
  induction n generalizing cells with
  | zero =>
      have hzero : t = 0 := by omega
      subst hzero
      simp
  | succ n ih =>
      rw [List.range_succ, List.reverse_append, List.reverse_singleton,
        List.singleton_append, phase_cons]
      rcases Nat.lt_or_ge n t with hlast | hinside
      · have heq : t = n + 1 := by omega
        subst heq
        rw [phase_of_notMem (by simp), absorb_of_ne cells (by omega)]
        simp
      · have hbefore : ∑ k ∈ Finset.Ico t n, absorb cells n k =
            ∑ k ∈ Finset.Ico t n, cells k := by
          apply Finset.sum_congr rfl
          intro k hk
          rw [Finset.mem_Ico] at hk
          exact absorb_of_ne cells (by omega)
        rw [ih hinside, Finset.sum_Ico_succ_top hinside, hbefore, absorb_self,
          Finset.sum_Ico_succ_top (by omega), Finset.sum_Ico_succ_top hinside,
          add_assoc]

/-! ## Phases over cells which are mostly zero -/

/-- The cells from `2` to `n` are zero. -/
def Cleared (n : ℕ) (cells : ℕ → M) : Prop :=
  ∀ k, 2 ≤ k → k ≤ n → cells k = 0

theorem Cleared.absorb
    {n t : ℕ} {cells : ℕ → M} (hclear : Cleared n cells) (ht : t < n) :
    Cleared n (absorb cells t) := by
  intro k hk hkn
  by_cases heq : k = t
  · subst heq
    rw [absorb_self, hclear k hk hkn, hclear (k + 1) (by omega) ht, add_zero]
  · rw [absorb_of_ne cells heq, hclear k hk hkn]

theorem absorb_one_of_cleared
    {n t : ℕ} {cells : ℕ → M} (hclear : Cleared n cells) (ht : t < n) :
    NeighbourReduction.absorb cells t 1 = cells 1 := by
  by_cases heq : 1 = t
  · subst heq
    rw [absorb_self, hclear 2 le_rfl ht, add_zero]
  · exact absorb_of_ne cells heq

/-- Over cleared cells a phase adds cell `1` to cell `0` once, in any order,
and changes nothing else. -/
theorem phase_of_cleared
    {n : ℕ} {order : List ℕ} (hlt : ∀ t ∈ order, t < n)
    (hnodup : order.Nodup) {cells : ℕ → M} (hclear : Cleared n cells) :
    Cleared n (phase cells order) ∧ phase cells order 1 = cells 1 ∧
      phase cells order 0 =
        if 0 ∈ order then cells 0 + cells 1 else cells 0 := by
  induction order generalizing cells with
  | nil => exact ⟨hclear, rfl, by simp⟩
  | cons t rest ih =>
      have ht := hlt t List.mem_cons_self
      have hone := absorb_one_of_cleared hclear ht
      rw [List.nodup_cons] at hnodup
      obtain ⟨hrest, hrestOne, hrestZero⟩ :=
        ih (fun u hu => hlt u (List.mem_cons_of_mem t hu)) hnodup.2
          (hclear.absorb ht)
      refine ⟨hrest, hrestOne.trans hone, ?_⟩
      rw [phase_cons, hrestZero, hone]
      by_cases hzero : t = 0
      · subst hzero
        simp [hnodup.1]
      · have hne : 0 ≠ t := Ne.symm hzero
        simp [absorb_of_ne cells hne, hne]

/-! ## How often a cell is counted -/

variable {N : Type*} [AddCommMonoid N]

theorem phase_map (φ : M →+ N) (cells : ℕ → M) (order : List ℕ) (k : ℕ) :
    phase (fun t => φ (cells t)) order k = φ (phase cells order k) := by
  induction order generalizing cells with
  | nil => rfl
  | cons t rest ih =>
      have habsorb : absorb (fun u => φ (cells u)) t =
          fun u => φ (absorb cells t u) := by
        funext u
        by_cases heq : u = t
        · subst heq
          rw [absorb_self, absorb_self, map_add]
        · rw [absorb_of_ne _ heq, absorb_of_ne _ heq]
      rw [phase_cons, phase_cons, habsorb, ih]

theorem tree_map
    (φ : M →+ N) (order : ℕ → List ℕ) (m : ℕ) (cells : ℕ → M) (k : ℕ) :
    tree order m (fun t => φ (cells t)) k = φ (tree order m cells k) := by
  induction m generalizing cells with
  | zero => rfl
  | succ m ih =>
      have hphase : phase (fun t => φ (cells t)) (order (2 ^ m)) =
          fun t => φ (phase cells (order (2 ^ m)) t) :=
        funext (phase_map φ cells _)
      rw [tree, tree, hphase, ih]

/-- How often each cell is counted in the result. -/
def share (order : ℕ → List ℕ) (m : ℕ) : ℕ → ℕ :=
  tree order m (fun t => Pi.single t 1) 0

theorem tree_eq_sum_share
    {order : ℕ → List ℕ} {m : ℕ}
    (hlt : ∀ j < m, ∀ t ∈ order (2 ^ j), t < 2 ^ j) (cells : ℕ → M) :
    tree order m cells 0 =
      ∑ t ∈ Finset.range (2 ^ m), share order m t • cells t := by
  let φ : (ℕ → ℕ) →+ M :=
    ∑ t ∈ Finset.range (2 ^ m),
      ((multiplesHom M (cells t)).comp (Pi.evalAddMonoidHom (fun _ => ℕ) t))
  have hφ : ∀ weights, φ weights =
      ∑ t ∈ Finset.range (2 ^ m), weights t • cells t := by
    intro weights
    simp [φ]
  have hsingle : ∀ k < 2 ^ m, cells k = φ (Pi.single k 1) := by
    intro k hk
    rw [hφ, Finset.sum_eq_single_of_mem k (Finset.mem_range.mpr hk),
      Pi.single_eq_same, one_smul]
    intro t _ hne
    rw [Pi.single_eq_of_ne hne, zero_smul]
  rw [tree_congr_below hlt hsingle, tree_map, hφ, share]

end Commutative

/-! ## Independence of the orders -/

section Orders

/-- The first `j + 1` of `n` cells from right to left, then the others. -/
def reversedStart (n j : ℕ) : List ℕ :=
  (List.range (j + 1)).reverse ++ List.range' (j + 1) (n - (j + 1))

theorem reversedStart_perm {n j : ℕ} (hj : j < n) :
    (reversedStart n j).Perm (List.range n) := by
  have hsplit : List.range n =
      List.range (j + 1) ++ List.range' (j + 1) (n - (j + 1)) := by
    have happend := List.range'_append_1 (s := 0) (m := j + 1)
      (n := n - (j + 1))
    rw [Nat.zero_add, Nat.add_sub_cancel' hj] at happend
    rw [List.range_eq_range', List.range_eq_range', happend]
  rw [hsplit]
  exact (List.reverse_perm _).append_right _

variable {K : Type*} [Field K]

theorem phase_reversedStart
    {t j : ℕ} (ht : t ≤ j) (n : ℕ) (cells : ℕ → K) :
    phase cells (reversedStart n j) t =
      ∑ k ∈ Finset.Ico t (j + 2), cells k := by
  have hrest : t ∉ List.range' (j + 1) (n - (j + 1)) := by
    rw [List.mem_range'_1]
    omega
  rw [reversedStart, phase_append, phase_of_notMem hrest,
    phase_reverse_range (by omega)]

theorem phase_reversedStart_zero_one
    {n : ℕ} (hn : 2 ≤ n) (cells : ℕ → K) :
    phase cells (reversedStart n 0) 1 = cells 1 + cells 2 := by
  obtain ⟨rest, rfl⟩ := Nat.exists_eq_add_of_le hn
  have hsplit : reversedStart (2 + rest) 0 =
      0 :: 1 :: List.range' 2 rest := by
    rw [reversedStart, show 2 + rest - (0 + 1) = rest + 1 by omega]
    rfl
  have hrest : 1 ∉ List.range' 2 rest := by
    rw [List.mem_range'_1]
    omega
  rw [hsplit, phase_cons, phase_cons, phase_of_notMem hrest, absorb_self,
    absorb_of_ne cells (by omega), absorb_of_ne cells (by omega)]

theorem tree_succ_for_all_orders_iff
    {m : ℕ} {cells : ℕ → K} {total : K} :
    (∀ order : ℕ → List ℕ, (∀ n, (order n).Perm (List.range n)) →
        tree order (m + 1) cells 0 = total) ↔
      ∀ first : List ℕ, first.Perm (List.range (2 ^ m)) →
        ∀ order : ℕ → List ℕ, (∀ n, (order n).Perm (List.range n)) →
          tree order m (phase cells first) 0 = total := by
  constructor
  · intro htree first hfirst order horder
    have hupdate := htree (Function.update order (2 ^ m) first) (by
      intro n
      by_cases hn : n = 2 ^ m
      · subst hn
        rw [Function.update_self]
        exact hfirst
      · rw [Function.update_of_ne hn]
        exact horder n)
    rw [tree, Function.update_self] at hupdate
    rw [← hupdate]
    apply congrFun
    apply tree_congr
    intro j hj
    have hne : 2 ^ j ≠ 2 ^ m := (Nat.pow_lt_pow_right (by omega) hj).ne
    rw [Function.update_of_ne hne]
  · intro hphase order horder
    exact hphase _ (horder (2 ^ m)) order horder

variable [CharZero K]

/-- If every order of one phase leads to the same weighted sum, the cells which
an order can count twice are zero. -/
theorem cleared_of_all_orders
    {n m : ℕ} (hn : 2 ≤ n) {cells : ℕ → K} {total : K}
    (htotal : ∀ order : List ℕ, order.Perm (List.range n) →
      total = phase cells order 0 + m * phase cells order 1) :
    Cleared n cells := by
  have hfamily : ∀ j, 1 ≤ j → j < n →
      total = cells 0 + (m + 1) * ∑ k ∈ Finset.Ico 1 (j + 2), cells k := by
    intro j hj hjn
    have hreversed := htotal _ (reversedStart_perm hjn)
    rw [phase_reversedStart (Nat.zero_le j), phase_reversedStart hj,
      Finset.sum_eq_sum_Ico_succ_bot (by omega)] at hreversed
    rw [hreversed]
    ring
  have htwo : cells 2 = 0 := by
    have hforward := htotal _ (reversedStart_perm (by omega : 0 < n))
    have hswapped := hfamily 1 le_rfl hn
    rw [phase_reversedStart le_rfl, phase_reversedStart_zero_one hn]
      at hforward
    simp only [Finset.sum_Ico_succ_top, Nat.zero_le, Nat.one_le_ofNat,
      Finset.Ico_self, Finset.sum_empty, zero_add, Nat.reduceAdd, le_refl]
      at hforward hswapped
    linear_combination hforward - hswapped
  intro k hk hkn
  rcases Nat.lt_or_ge 2 k with hlarge | hsmall
  · obtain ⟨j, rfl⟩ := Nat.exists_eq_add_of_le hlarge
    have hshort := hfamily (j + 1) (by omega) (by omega)
    have hlong := hfamily (j + 2) (by omega) (by omega)
    rw [Finset.sum_Ico_succ_top (by omega)] at hlong
    have hweighted : ((m : K) + 1) * cells (j + 3) = 0 := by
      linear_combination hshort - hlong
    have hne : (m : K) + 1 ≠ 0 := Nat.cast_add_one_ne_zero m
    rw [show 2 + 1 + j = j + 3 by omega]
    exact (mul_eq_zero.mp hweighted).resolve_left hne
  · have heq : k = 2 := by omega
    rw [heq, htwo]

theorem tree_eq_for_all_orders_iff
    (m : ℕ) (cells : ℕ → K) (total : K) :
    (∀ order : ℕ → List ℕ, (∀ n, (order n).Perm (List.range n)) →
        tree order m cells 0 = total) ↔
      Cleared (2 ^ m / 2) cells ∧ total = cells 0 + m * cells 1 := by
  induction m generalizing cells with
  | zero =>
      have hvacuous : Cleared (2 ^ 0 / 2) cells := by
        intro k hk hkn
        omega
      have hrange : ∀ n, (List.range n).Perm (List.range n) :=
        fun n => List.Perm.refl _
      constructor
      · intro htree
        have hcell := htree List.range hrange
        rw [tree] at hcell
        exact ⟨hvacuous, by rw [hcell]; simp⟩
      · rintro ⟨_, htotal⟩ order _
        rw [tree, htotal]
        simp
  | succ m ih =>
      have hhalf : 2 ^ (m + 1) / 2 = 2 ^ m := by
        rw [pow_succ]
        omega
      have hpos : 0 < 2 ^ m := Nat.two_pow_pos m
      rw [tree_succ_for_all_orders_iff, hhalf]
      constructor
      · intro hphase
        have htotal : ∀ first : List ℕ, first.Perm (List.range (2 ^ m)) →
            total = phase cells first 0 + m * phase cells first 1 :=
          fun first hfirst => ((ih _).mp (hphase first hfirst)).2
        have hclear : Cleared (2 ^ m) cells := by
          cases m with
          | zero =>
              intro k hk hkn
              omega
          | succ m =>
              apply cleared_of_all_orders _ htotal
              rw [pow_succ]
              omega
        obtain ⟨_, hone, hzero⟩ := phase_of_cleared
          (fun t ht => List.mem_range.mp ht) List.nodup_range hclear
        refine ⟨hclear, ?_⟩
        rw [htotal _ (List.Perm.refl _), hone, hzero,
          if_pos (List.mem_range.mpr hpos)]
        push_cast
        ring
      · rintro ⟨hclear, htotal⟩ first hfirst
        have hlt : ∀ t ∈ first, t < 2 ^ m := fun t ht =>
          List.mem_range.mp (hfirst.mem_iff.mp ht)
        obtain ⟨hkept, hone, hzero⟩ :=
          phase_of_cleared hlt (hfirst.nodup_iff.mpr List.nodup_range) hclear
        have hmem : 0 ∈ first :=
          hfirst.mem_iff.mpr (List.mem_range.mpr hpos)
        apply (ih _).mpr
        refine ⟨fun k hk hkn => hkept k hk (by omega), ?_⟩
        rw [hone, hzero, if_pos hmem, htotal]
        push_cast
        ring

end Orders

/-! ## Bounds for all orders -/

section Bounds

theorem le_phase (cells : ℕ → ℕ) (order : List ℕ) (k : ℕ) :
    cells k ≤ phase cells order k := by
  induction order generalizing cells with
  | nil => exact le_refl _
  | cons t rest ih =>
      refine le_trans ?_ (ih (absorb cells t))
      by_cases heq : k = t
      · subst heq
        rw [absorb_self]
        exact Nat.le_add_right _ _
      · rw [absorb_of_ne cells heq]

/-- A cell which takes its turn at least doubles the lower bound. -/
theorem two_mul_le_phase
    {n v : ℕ} {order : List ℕ} (hlt : ∀ t ∈ order, t < n)
    {cells : ℕ → ℕ} (hcells : ∀ k ≤ n, v ≤ cells k) {t : ℕ}
    (ht : t ∈ order) : 2 * v ≤ phase cells order t := by
  induction order generalizing cells with
  | nil => exact absurd ht List.not_mem_nil
  | cons u rest ih =>
      have hu := hlt u List.mem_cons_self
      have habsorb : ∀ k ≤ n, v ≤ absorb cells u k :=
        fun k hk => (hcells k hk).trans (le_phase cells [u] k)
      rcases List.mem_cons.mp ht with heq | hrest
      · subst heq
        have hhere := hcells t hu.le
        have hnext := hcells (t + 1) hu
        have hself := absorb_self cells t
        have hlater := le_phase (absorb cells t) rest t
        rw [phase_cons]
        omega
      · exact ih (fun w hw => hlt w (List.mem_cons_of_mem u hw)) habsorb hrest

theorem two_pow_mul_le_tree
    {order : ℕ → List ℕ} {m v : ℕ}
    (hperm : ∀ j < m, (order (2 ^ j)).Perm (List.range (2 ^ j)))
    {cells : ℕ → ℕ} (hcells : ∀ k < 2 ^ m, v ≤ cells k) :
    2 ^ m * v ≤ tree order m cells 0 := by
  induction m generalizing cells v with
  | zero => simpa [tree] using hcells 0 (by norm_num)
  | succ m ih =>
      have hpow : 2 ^ (m + 1) = 2 * 2 ^ m := pow_succ' 2 m
      have hpos := Nat.two_pow_pos m
      have hmem : ∀ t, t ∈ order (2 ^ m) ↔ t < 2 ^ m := fun t =>
        (hperm m (by omega)).mem_iff.trans List.mem_range
      rw [tree, hpow, mul_comm 2, mul_assoc]
      apply ih fun j hj => hperm j (by omega)
      intro k hk
      exact two_mul_le_phase (fun t ht => (hmem t).mp ht)
        (fun t ht => hcells t (by omega)) ((hmem k).mpr hk)

/-- A cell which has taken its turn counts at most the cells up to cell `n`. -/
theorem phase_le
    {n w : ℕ} {order : List ℕ} (hlt : ∀ t ∈ order, t < n)
    (hnodup : order.Nodup) {cells : ℕ → ℕ}
    (hcells : ∀ k ≤ n, cells k ≤ (n + 1 - k) * w)
    (hopen : ∀ k ∈ order, cells k ≤ w) :
    ∀ k ≤ n, phase cells order k ≤ (n + 1 - k) * w := by
  induction order generalizing cells with
  | nil => exact hcells
  | cons t rest ih =>
      have ht := hlt t List.mem_cons_self
      rw [List.nodup_cons] at hnodup
      apply ih (fun u hu => hlt u (List.mem_cons_of_mem t hu)) hnodup.2
      · intro k hk
        by_cases heq : k = t
        · subst heq
          have hhere := hopen k List.mem_cons_self
          have hnext := hcells (k + 1) ht
          have hcount : (n + 1 - k) * w = (n + 1 - (k + 1)) * w + w := by
            rw [← Nat.succ_mul]
            congr 1
            omega
          rw [absorb_self]
          omega
        · rw [absorb_of_ne cells heq]
          exact hcells k hk
      · intro k hk
        have hne : k ≠ t := by
          rintro rfl
          exact hnodup.1 hk
        rw [absorb_of_ne cells hne]
        exact hopen k (List.mem_cons_of_mem t hk)

theorem tree_le
    {order : ℕ → List ℕ} {m w : ℕ}
    (hperm : ∀ j < m, (order (2 ^ j)).Perm (List.range (2 ^ j)))
    {cells : ℕ → ℕ} (hcells : ∀ k < 2 ^ m, cells k ≤ w) :
    tree order m cells 0 ≤ (∏ j ∈ Finset.range m, (2 ^ j + 1)) * w := by
  induction m generalizing cells w with
  | zero => simpa [tree] using hcells 0 (by norm_num)
  | succ m ih =>
      have hpow : 2 ^ (m + 1) = 2 * 2 ^ m := pow_succ' 2 m
      have hpos := Nat.two_pow_pos m
      have hlast := hperm m (by omega)
      have hlt : ∀ t ∈ order (2 ^ m), t < 2 ^ m := fun t ht =>
        List.mem_range.mp (hlast.mem_iff.mp ht)
      have hphase := phase_le hlt (hlast.nodup_iff.mpr List.nodup_range)
        (w := w)
        (fun k hk => (hcells k (by omega)).trans
          (Nat.le_mul_of_pos_left w (by omega)))
        (fun k hk => hcells k (by have := hlt k hk; omega))
      rw [tree, Finset.prod_range_succ, mul_assoc]
      apply ih fun j hj => hperm j (by omega)
      intro k hk
      exact (hphase k hk.le).trans (Nat.mul_le_mul_right w (by omega))

/-- The shares of all cells together are what a row of ones is reduced to. -/
theorem sum_share_bounds
    {order : ℕ → List ℕ} {m : ℕ}
    (hperm : ∀ j < m, (order (2 ^ j)).Perm (List.range (2 ^ j))) :
    2 ^ m ≤ ∑ t ∈ Finset.range (2 ^ m), share order m t ∧
      ∑ t ∈ Finset.range (2 ^ m), share order m t ≤
        ∏ j ∈ Finset.range m, (2 ^ j + 1) := by
  have hlt : ∀ j < m, ∀ t ∈ order (2 ^ j), t < 2 ^ j := fun j hj t ht =>
    List.mem_range.mp ((hperm j hj).mem_iff.mp ht)
  have hones := tree_eq_sum_share hlt (fun _ : ℕ => (1 : ℕ))
  simp only [smul_eq_mul, mul_one] at hones
  rw [← hones]
  constructor
  · simpa using two_pow_mul_le_tree hperm (fun _ _ => le_refl 1)
  · simpa using tree_le hperm (fun _ _ => le_refl 1)

end Bounds

end NeighbourReduction
end StockFeed
