import StockFeed.FilterGraph

/-!
# Filter expressions

A filter expression combines tests of the packet.  A test is one conditional
jump behind some statements; what it leaves in the registers is seen by the
test after it.  `Implements` says that blocks of a graph compute an expression
and leave it at one of two exits.
-/

namespace StockFeed
namespace Bpf

/-- The statements and the branch of a block: the accumulator is compared with
`k` or with `X`. -/
structure Test where
  stmts : List Stmt
  op : JumpOp
  src : Source
  k : UInt32
  deriving DecidableEq, Repr

inductive Expr
  | test (test : Test)
  | and (e₀ e₁ : Expr)
  | or (e₀ e₁ : Expr)
  | not (e : Expr)
  deriving Repr

/-! ## What an expression means -/

def Test.eval (test : Test) (input : Input) (regs : Regs) : Exec (Bool × Regs) := do
  let regs ← execStmts input test.stmts regs
  return (test.op.holds regs.A (test.src.operand test.k regs), regs)

/-- The second operand is only looked at if the first one does not decide. -/
def Expr.eval (input : Input) : Expr → Regs → Exec (Bool × Regs)
  | .test leaf, regs => leaf.eval input regs
  | .and e₀ e₁, regs => do
      let (holds, regs) ← e₀.eval input regs
      if holds then e₁.eval input regs else return (false, regs)
  | .or e₀ e₁, regs => do
      let (holds, regs) ← e₀.eval input regs
      if holds then return (true, regs) else e₁.eval input regs
  | .not e, regs => do
      let (holds, regs) ← e.eval input regs
      return (!holds, regs)

/-- What becomes of a packet: `snaplen` bytes are kept where the expression
holds. -/
def Expr.outcome (e : Expr) (snaplen : UInt32) (input : Input) (regs : Regs) : Stop :=
  match e.eval input regs with
  | .ok (true, _) => .ret snaplen
  | .ok (false, _) => .ret 0
  | .error stop => stop

/-! ## Graphs which compute an expression -/

/-- Where the branch of block `p` goes, `side` being set for the false one. -/
def Graph.edge (g : Graph) (p : ℕ) (side : Bool) : Option ℕ :=
  if side then (g p).jf else (g p).jt

/-- Block `p` is the block of a test, and none of its branches is marked. -/
structure Tests (g : Graph) (p : ℕ) (test : Test) : Prop where
  stmts : (g p).stmts = test.stmts
  code : (g p).code = .jump test.op test.src
  k : (g p).k = test.k
  longjt : (g p).longjt = 0
  longjf : (g p).longjf = 0

/-- The blocks of the list, each before the blocks it leads to, compute the
expression from the given block on and leave it at `t` or at `f`. -/
inductive Implements (g : Graph) :
    Expr → ℕ → Option ℕ → Option ℕ → List ℕ → Prop
  | test {test : Test} {p : ℕ} (htest : Tests g p test) :
      Implements g (.test test) p (g.edge p false) (g.edge p true) [p]
  | and {e₀ e₁ : Expr} {root mid : ℕ} {t f : Option ℕ} {nodes₀ nodes₁ : List ℕ}
      (hfirst : Implements g e₀ root (some mid) f nodes₀)
      (hsecond : Implements g e₁ mid t f nodes₁) :
      Implements g (.and e₀ e₁) root t f (nodes₀ ++ nodes₁)
  | or {e₀ e₁ : Expr} {root mid : ℕ} {t f : Option ℕ} {nodes₀ nodes₁ : List ℕ}
      (hfirst : Implements g e₀ root t (some mid) nodes₀)
      (hsecond : Implements g e₁ mid t f nodes₁) :
      Implements g (.or e₀ e₁) root t f (nodes₀ ++ nodes₁)
  | not {e : Expr} {root : ℕ} {t f : Option ℕ} {nodes : List ℕ}
      (hinner : Implements g e root f t nodes) :
      Implements g (.not e) root t f nodes

section Implements

variable {g g' : Graph} {e : Expr} {root : ℕ} {t f : Option ℕ} {nodes : List ℕ}

theorem Implements.root_mem (himpl : Implements g e root t f nodes) :
    root ∈ nodes := by
  induction himpl with
  | test => exact List.mem_singleton_self _
  | and _ _ ih _ => exact List.mem_append_left _ ih
  | or _ _ ih _ => exact List.mem_append_left _ ih
  | not _ ih => exact ih

/-- Only the blocks of the list matter. -/
theorem Implements.congr
    (himpl : Implements g e root t f nodes)
    (htests : ∀ p ∈ nodes, ∀ test, Tests g p test → Tests g' p test)
    (hedges : ∀ p ∈ nodes, ∀ side, g'.edge p side = g.edge p side) :
    Implements g' e root t f nodes := by
  induction himpl with
  | @test test p htest =>
      have hp : p ∈ [p] := List.mem_singleton_self p
      have hnew := Implements.test (htests p hp test htest)
      rwa [hedges p hp, hedges p hp] at hnew
  | and _ _ ih₀ ih₁ =>
      exact .and
        (ih₀ (fun p hp => htests p (List.mem_append_left _ hp))
          (fun p hp => hedges p (List.mem_append_left _ hp)))
        (ih₁ (fun p hp => htests p (List.mem_append_right _ hp))
          (fun p hp => hedges p (List.mem_append_right _ hp)))
  | or _ _ ih₀ ih₁ =>
      exact .or
        (ih₀ (fun p hp => htests p (List.mem_append_left _ hp))
          (fun p hp => hedges p (List.mem_append_left _ hp)))
        (ih₁ (fun p hp => htests p (List.mem_append_right _ hp))
          (fun p hp => hedges p (List.mem_append_right _ hp)))
  | not _ ih => exact .not (ih htests hedges)

/-- Room for the statements and the branch of each test. -/
def Expr.size : Expr → ℕ
  | .test leaf => leaf.stmts.length + 3
  | .and e₀ e₁ | .or e₀ e₁ => e₀.size + e₁.size
  | .not e => e.size

def Expr.leaves : Expr → List Test
  | .test leaf => [leaf]
  | .and e₀ e₁ | .or e₀ e₁ => e₀.leaves ++ e₁.leaves
  | .not e => e.leaves

/-- Each block is the block of a test of the expression. -/
theorem Implements.tests
    (himpl : Implements g e root t f nodes) :
    ∀ p ∈ nodes, ∃ test ∈ e.leaves, Tests g p test := by
  induction himpl with
  | @test test p htest =>
      intro q hq
      rw [List.mem_singleton] at hq
      exact ⟨test, List.mem_singleton_self test, hq ▸ htest⟩
  | and _ _ ih₀ ih₁ | or _ _ ih₀ ih₁ =>
      intro p hp
      rcases List.mem_append.mp hp with hp₀ | hp₁
      · obtain ⟨test, hmem, htest⟩ := ih₀ p hp₀
        exact ⟨test, List.mem_append_left _ hmem, htest⟩
      · obtain ⟨test, hmem, htest⟩ := ih₁ p hp₁
        exact ⟨test, List.mem_append_right _ hmem, htest⟩
  | not _ ih => exact ih

theorem Implements.size
    (himpl : Implements g e root t f nodes) :
    (nodes.map fun p => (g p).stmts.length + 3).sum = e.size := by
  induction himpl with
  | test htest => simp [htest.stmts, Expr.size]
  | and _ _ ih₀ ih₁ => rw [List.map_append, List.sum_append, ih₀, ih₁, Expr.size]
  | or _ _ ih₀ ih₁ => rw [List.map_append, List.sum_append, ih₀, ih₁, Expr.size]
  | not _ ih => exact ih

end Implements

/-! ## Running the blocks of an expression -/

/-- Blocks which compute an expression leave it at the exit its value says. -/
theorem Implements.run
    {g : Graph} {e : Expr} {root : ℕ} {t f : Option ℕ} {nodes : List ℕ}
    (himpl : Implements g e root t f nodes) (input : Input) (regs : Regs) :
    ∃ n, graphSteps g input n ⟨some root, regs⟩ =
      (e.eval input regs).map fun (holds, regs) =>
        ⟨if holds then t else f, regs⟩ := by
  induction himpl generalizing regs with
  | @test test p htest =>
      refine ⟨1, ?_⟩
      have hrun : graphStep g input ⟨some p, regs⟩ =
          (test.eval input regs).map fun (holds, regs) =>
            ⟨if holds then (g p).jt else (g p).jf, regs⟩ := by
        simp only [graphStep, Block.run, htest.stmts, htest.code, htest.k,
          Test.eval]
        cases execStmts input test.stmts regs <;> rfl
      rw [graphSteps, hrun]
      simp only [Expr.eval, Graph.edge]
      cases test.eval input regs <;> rfl
  | not _ ih =>
      obtain ⟨n, hn⟩ := ih regs
      refine ⟨n, ?_⟩
      rw [hn, Expr.eval]
      cases Expr.eval input _ regs with
      | error stop => rfl
      | ok value =>
          obtain ⟨holds, regs'⟩ := value
          cases holds <;> rfl
  | @and e₀ e₁ root mid t f _ _ _ _ ih₀ ih₁ =>
      obtain ⟨n, hn⟩ := ih₀ regs
      rw [Expr.eval]
      cases hfirst : e₀.eval input regs with
      | error stop =>
          rw [hfirst] at hn
          exact ⟨n, hn⟩
      | ok value =>
          obtain ⟨holds, regs'⟩ := value
          rw [hfirst] at hn
          cases holds with
          | false => exact ⟨n, hn⟩
          | true =>
              obtain ⟨m, hm⟩ := ih₁ regs'
              exact ⟨n + m, by rw [graphSteps_add, hn]; exact hm⟩
  | @or e₀ e₁ root mid t f _ _ _ _ ih₀ ih₁ =>
      obtain ⟨n, hn⟩ := ih₀ regs
      rw [Expr.eval]
      cases hfirst : e₀.eval input regs with
      | error stop =>
          rw [hfirst] at hn
          exact ⟨n, hn⟩
      | ok value =>
          obtain ⟨holds, regs'⟩ := value
          rw [hfirst] at hn
          cases holds with
          | true => exact ⟨n, hn⟩
          | false =>
              obtain ⟨m, hm⟩ := ih₁ regs'
              exact ⟨n + m, by rw [graphSteps_add, hn]; exact hm⟩

/-! ## Blocks in order -/

/-- Each branch of a block in the list leads to a later block or to an exit. -/
def Ordered (g : Graph) (exits : Set (Option ℕ)) : List ℕ → Prop
  | [] => True
  | p :: rest =>
      (∀ side, g.edge p side ∈ exits ∨ ∃ q ∈ rest, g.edge p side = some q) ∧
        Ordered g exits rest

section Ordered

variable {g : Graph} {exits exits' : Set (Option ℕ)} {nodes nodes' : List ℕ}

/-- What is an exit of the first list may be a block of the second. -/
theorem Ordered.append
    (hfirst : Ordered g exits nodes) (hsecond : Ordered g exits' nodes')
    (hexits : ∀ exit ∈ exits, exit ∈ exits' ∨ ∃ q ∈ nodes', exit = some q) :
    Ordered g exits' (nodes ++ nodes') := by
  induction nodes with
  | nil => exact hsecond
  | cons p rest ih =>
      obtain ⟨hedges, hrest⟩ := hfirst
      refine ⟨fun side => ?_, ih hrest⟩
      rcases hedges side with hexit | ⟨q, hq, hedge⟩
      · rcases hexits _ hexit with hleave | ⟨q, hq, hedge⟩
        · exact Or.inl hleave
        · exact Or.inr ⟨q, List.mem_append_right rest hq, hedge⟩
      · exact Or.inr ⟨q, List.mem_append_left nodes' hq, hedge⟩

theorem Implements.ordered
    {e : Expr} {root : ℕ} {t f : Option ℕ}
    (himpl : Implements g e root t f nodes) : Ordered g {t, f} nodes := by
  induction himpl with
  | test htest =>
      refine ⟨fun side => Or.inl ?_, trivial⟩
      cases side
      · exact Or.inl rfl
      · exact Or.inr rfl
  | not _ ih => rwa [Set.pair_comm]
  | @and _ _ _ mid t f _ _ hfirst hsecond ih₀ ih₁ =>
      refine ih₀.append ih₁ ?_
      rintro exit (rfl | rfl)
      · exact Or.inr ⟨mid, hsecond.root_mem, rfl⟩
      · exact Or.inl (Or.inr rfl)
  | @or _ _ _ mid t f _ _ hfirst hsecond ih₀ ih₁ =>
      refine ih₀.append ih₁ ?_
      rintro exit (rfl | rfl)
      · exact Or.inl (Or.inl rfl)
      · exact Or.inr ⟨mid, hsecond.root_mem, rfl⟩

theorem Ordered.edge_some
    (hordered : Ordered g exits nodes) (hexits : none ∉ exits) {p : ℕ}
    (hp : p ∈ nodes) (side : Bool) : ∃ q, g.edge p side = some q := by
  induction nodes with
  | nil => exact absurd hp List.not_mem_nil
  | cons r rest ih =>
      obtain ⟨hedges, hrest⟩ := hordered
      rcases List.mem_cons.mp hp with rfl | hmem
      · rcases hedges side with hexit | ⟨q, _, hedge⟩
        · exact Option.ne_none_iff_exists'.mp fun hnone => hexits (hnone ▸ hexit)
        · exact ⟨q, hedge⟩
      · exact ih hrest hmem

/-- The number of blocks from `p` on. -/
def rankIn : List ℕ → ℕ → ℕ
  | [], _ => 0
  | p :: rest, q => if q = p then rest.length + 1 else rankIn rest q

theorem rankIn_le (nodes : List ℕ) (p : ℕ) : rankIn nodes p ≤ nodes.length := by
  induction nodes with
  | nil => exact le_rfl
  | cons q rest ih =>
      rw [rankIn, List.length_cons]
      split_ifs <;> omega

/-- Without exits, ranks fall along the branches. -/
theorem Ordered.rank_lt
    (hordered : Ordered g {none} nodes) (hnodup : nodes.Nodup) {p q : ℕ}
    (hp : p ∈ nodes) {side : Bool} (hedge : g.edge p side = some q) :
    q ∈ nodes ∧ rankIn nodes q < rankIn nodes p := by
  induction nodes with
  | nil => exact absurd hp List.not_mem_nil
  | cons r rest ih =>
      obtain ⟨hedges, hrest⟩ := hordered
      obtain ⟨hfresh, hnodup'⟩ := List.nodup_cons.mp hnodup
      have hother : ∀ q ∈ rest, rankIn (r :: rest) q = rankIn rest q := by
        intro q hq
        rw [rankIn, if_neg]
        rintro rfl
        exact hfresh hq
      rcases List.mem_cons.mp hp with rfl | hmem
      · have hq : q ∈ rest := by
          rcases hedges side with hnone | ⟨q', hq', hedge'⟩
          · rw [hedge] at hnone
            exact absurd hnone (by simp)
          · rw [hedge, Option.some.injEq] at hedge'
            exact hedge' ▸ hq'
        refine ⟨List.mem_cons_of_mem p hq, ?_⟩
        rw [hother q hq, rankIn, if_pos rfl]
        exact Nat.lt_succ_of_le (rankIn_le rest q)
      · obtain ⟨hq, hlt⟩ := ih hrest hnodup' hmem
        refine ⟨List.mem_cons_of_mem r hq, ?_⟩
        rwa [hother q hq, hother p hmem]

end Ordered

end Bpf
end StockFeed
