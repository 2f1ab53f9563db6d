import StockFeed.BpfMachine

/-!
# Filters as flowgraphs

The compiler of `gencode.c` builds a filter as blocks: statements without
jumps, then a conditional jump with two successors or a return.  A pointer to
a block is its number, and the blocks live in a heap which is changed in
place.  A graph is run block by block; it ends as a program of the machine
does.

Statements which jump within their block are left out.  Only header lengths
of other link types and `protochain` need them.
-/

namespace StockFeed
namespace Bpf

/-! ## Blocks -/

/-- `struct stmt` of a statement list; `none` is the code `NOP`. -/
structure Stmt where
  code : Option PlainOp
  k : UInt32
  deriving DecidableEq, Repr

/-- The code of the statement a block ends with. -/
inductive Branch
  | jump (op : JumpOp) (src : Source)
  | ret (value : ReturnValue)
  deriving DecidableEq, Repr

def Branch.op : Branch → Op
  | .jump op src => .jump op src
  | .ret value => .ret value

/-- `struct block`, without what only the optimizer uses.  `jt` and `jf` are
`et.succ` and `ef.succ`. -/
structure Block where
  stmts : List Stmt
  code : Branch
  k : UInt32
  longjt : ℕ
  longjf : ℕ
  offset : ℤ
  sense : Bool
  jt : Option ℕ
  jf : Option ℕ
  head : ℕ
  deriving DecidableEq, Repr

abbrev Graph := ℕ → Block

/-! ## Running a graph -/

def Stmt.exec (stmt : Stmt) (input : Input) (regs : Regs) : Exec Regs :=
  match stmt.code with
  | some op => op.exec stmt.k input regs
  | none => .ok regs

def execStmts (input : Input) : List Stmt → Regs → Exec Regs
  | [], regs => .ok regs
  | stmt :: rest, regs => stmt.exec input regs >>= execStmts input rest

/-- Where a graph run is: at a block, or at a pointer which is null. -/
structure Position where
  block : Option ℕ
  regs : Regs

/-- Run one block. -/
def Block.run (b : Block) (input : Input) (regs : Regs) : Exec Position := do
  let regs ← execStmts input b.stmts regs
  match b.code with
  | .jump op src =>
      return ⟨if op.holds regs.A (src.operand b.k regs) then b.jt else b.jf, regs⟩
  | .ret value => .error (.ret (value.get b.k regs))

def graphStep (g : Graph) (input : Input) (here : Position) : Exec Position :=
  match here.block with
  | some p => (g p).run input here.regs
  | none => .error .outOfCode

def graphSteps (g : Graph) (input : Input) : ℕ → Position → Exec Position
  | 0, here => .ok here
  | n + 1, here => graphStep g input here >>= graphSteps g input n

/-- How the run from a block ends. -/
def Ends (g : Graph) (input : Input) (here : Position) (stop : Stop) : Prop :=
  ∃ n, graphSteps g input n here = .error stop

theorem graphSteps_add
    (g : Graph) (input : Input) (m n : ℕ) (here : Position) :
    graphSteps g input (m + n) here =
      graphSteps g input m here >>= graphSteps g input n := by
  induction m generalizing here with
  | zero => rw [Nat.zero_add]; rfl
  | succ m ih =>
      rw [Nat.succ_add, graphSteps, graphSteps]
      cases graphStep g input here with
      | error stop => rfl
      | ok next => exact ih next

/-! ## Flowgraphs -/

/-- The blocks `S` form a graph without cycles: `rank` falls along each edge,
and blocks have two successors or return. -/
structure FlowGraph (g : Graph) (S : Set ℕ) (rank : ℕ → ℕ) : Prop where
  jump : ∀ p ∈ S, ∀ op src, (g p).code = .jump op src →
    ∃ t ∈ S, ∃ f ∈ S, (g p).jt = some t ∧ (g p).jf = some f ∧
      rank t < rank p ∧ rank f < rank p
  ret : ∀ p ∈ S, ∀ value, (g p).code = .ret value →
    (g p).jt = none ∧ (g p).jf = none

/-- Every run of a flowgraph ends. -/
theorem FlowGraph.ends
    {g : Graph} {S : Set ℕ} {rank : ℕ → ℕ} (hflow : FlowGraph g S rank)
    (input : Input) {p : ℕ} (hp : p ∈ S) (regs : Regs) :
    ∃ stop, Ends g input ⟨some p, regs⟩ stop := by
  induction hrank : rank p using Nat.strong_induction_on generalizing p regs with
  | h r ih =>
      subst hrank
      cases hstep : graphStep g input ⟨some p, regs⟩ with
      | error stop => exact ⟨stop, 1, by rw [graphSteps, hstep]; rfl⟩
      | ok next =>
          -- a block which does not end the run is a jump
          have hnext : ∃ q ∈ S, next.block = some q ∧ rank q < rank p := by
            simp only [graphStep, Block.run, bind_eq_ok] at hstep
            obtain ⟨regs', _, hbranch⟩ := hstep
            cases hcode : (g p).code with
            | jump op src =>
                obtain ⟨t, ht, f, hf, hjt, hjf, hrt, hrf⟩ :=
                  hflow.jump p hp op src hcode
                simp only [hcode, pure, Except.pure, Except.ok.injEq] at hbranch
                subst hbranch
                split_ifs
                · exact ⟨t, ht, hjt, hrt⟩
                · exact ⟨f, hf, hjf, hrf⟩
            | ret value => simp [hcode] at hbranch
          obtain ⟨q, hq, hblock, hlt⟩ := hnext
          obtain ⟨stop, n, hrest⟩ := ih (rank q) hlt hq next.regs rfl
          refine ⟨stop, n + 1, ?_⟩
          rw [graphSteps, hstep, ← hrest, ← hblock]
          rfl

end Bpf
end StockFeed
