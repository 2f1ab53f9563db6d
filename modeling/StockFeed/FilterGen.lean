import StockFeed.ConvertCode
import StockFeed.PatchLists

/-!
# pcap_compile

The actions of the grammar build a piece of filter for each expression from
fresh blocks, `finish_parse` leads its open branches to two returns, and
`icode_to_fcode` makes a program of it.  For every expression the program is
accepted and treats every packet as the expression says.
-/

namespace StockFeed
namespace Bpf

def genRetblk (v : UInt32) : Gen ℕ := do
  let b ← newBlock (.ret .K)
  setBlock b fun block => { block with k := v }
  return b

/-- `finish_parse`, for a link type with headers of fixed length.  The result
is `root`. -/
def finishParse (p : ℕ) (snaplen : UInt32) : Gen ℕ := do
  backpatch p (← genRetblk snaplen)
  flipSense p
  backpatch p (← genRetblk 0)
  return (← getBlock p).head

/-- The end of `gen_ncmp` and of `gen_relation`: a block for a test. -/
def genTest (test : Test) : Gen ℕ := do
  let b ← newBlock (.jump test.op test.src)
  setBlock b fun block => { block with stmts := test.stmts }
  setBlock b fun block => { block with k := test.k }
  return b

/-- The actions of the grammar for the operators. -/
def genExpr : Expr → Gen ℕ
  | .test leaf => genTest leaf
  | .and e₀ e₁ => do
      let b0 ← genExpr e₀
      let b1 ← genExpr e₁
      genAnd b0 b1
      return b1
  | .or e₀ e₁ => do
      let b0 ← genExpr e₀
      let b1 ← genExpr e₁
      genOr b0 b1
      return b1
  | .not e => do
      let b ← genExpr e
      genNot b
      return b

/-- `pcap_compile` without the optimizer, up to `root`.  `parse` is what the
parser does with the expression, `none` for an empty one. -/
def buildRoot (parse : Option (Gen ℕ)) (snaplen : UInt32) : Gen ℕ :=
  match parse with
  | some gen => do finishParse (← gen) snaplen
  | none => genRetblk snaplen

/-- `pcap_compile` without the optimizer; `none` is a failure. -/
def pcapCompile (parse : Option (Gen ℕ)) (snaplen : UInt32) : Option (List Insn) :=
  if snaplen = 0 then none
  else do
    let (root, h) ← buildRoot parse snaplen Heap.empty
    icodeToFcode (h.next + 1) (2 * h.next + 1) h.graph root

/-! ## Building from fresh blocks -/

/-- From `h` to `h'`, a piece for `e` has been built from blocks which were
free, and the others are as they were. -/
structure Built (h h' : Heap) (b : ℕ) (e : Expr) (tails : Bool → List Hole)
    (nodes : List ℕ) : Prop where
  next_le : h.next ≤ h'.next
  same : ∀ p, p < h.next → h'.graph p = h.graph p
  range : ∀ p ∈ nodes, h.next ≤ p ∧ p < h'.next
  frag : Frag h'.graph b tails e nodes

def Builds (m : Gen ℕ) (e : Expr) : Prop :=
  ∀ h, ∃ b h' tails nodes, m h = some (b, h') ∧ Built h h' b e tails nodes

section Builds

variable {h h₁ h₂ : Heap} {b0 b1 : ℕ} {tails₀ tails₁ : Bool → List Hole}
  {e e₀ e₁ : Expr} {nodes₀ nodes₁ : List ℕ} {m m₀ m₁ : Gen ℕ}

theorem Built.disjoint
    (hfirst : Built h h₁ b0 e₀ tails₀ nodes₀)
    (hsecond : Built h₁ h₂ b1 e₁ tails₁ nodes₁) : ∀ p ∈ nodes₀, p ∉ nodes₁ := by
  intro p hp hp'
  have hlt := (hfirst.range p hp).2
  have hle := (hsecond.range p hp').1
  omega

/-- A piece is still there after another one has been built. -/
theorem Built.later
    (hfirst : Built h h₁ b0 e₀ tails₀ nodes₀)
    (hsecond : Built h₁ h₂ b1 e₁ tails₁ nodes₁) :
    Frag h₂.graph b0 tails₀ e₀ nodes₀ :=
  hfirst.frag.congr fun p hp => hsecond.same p (hfirst.range p hp).2

/-- The operands of a connective, whichever has been built first, are pieces
of the heap to which it is applied. -/
structure Operands (h h₂ : Heap) (b0 b1 : ℕ) (e₀ e₁ : Expr)
    (tails₀ tails₁ : Bool → List Hole) (nodes₀ nodes₁ : List ℕ) : Prop where
  next_le : h.next ≤ h₂.next
  same : ∀ p, p < h.next → h₂.graph p = h.graph p
  first : Frag h₂.graph b0 tails₀ e₀ nodes₀
  second : Frag h₂.graph b1 tails₁ e₁ nodes₁
  disjoint : ∀ p ∈ nodes₀, p ∉ nodes₁
  range₀ : ∀ p ∈ nodes₀, h.next ≤ p ∧ p < h₂.next
  range₁ : ∀ p ∈ nodes₁, h.next ≤ p ∧ p < h₂.next

theorem Built.operands
    (hfirst : Built h h₁ b0 e₀ tails₀ nodes₀)
    (hsecond : Built h₁ h₂ b1 e₁ tails₁ nodes₁) :
    Operands h h₂ b0 b1 e₀ e₁ tails₀ tails₁ nodes₀ nodes₁ := by
  have hle := hfirst.next_le
  have hle' := hsecond.next_le
  refine ⟨hle.trans hle', ?_, hfirst.later hsecond, hsecond.frag,
    hfirst.disjoint hsecond, ?_, ?_⟩
  · intro p hp
    rw [hsecond.same p (hp.trans_le hle), hfirst.same p hp]
  · intro p hp
    have hrange := hfirst.range p hp
    omega
  · intro p hp
    have hrange := hsecond.range p hp
    omega

theorem Operands.symm
    (hops : Operands h h₂ b0 b1 e₀ e₁ tails₀ tails₁ nodes₀ nodes₁) :
    Operands h h₂ b1 b0 e₁ e₀ tails₁ tails₀ nodes₁ nodes₀ :=
  ⟨hops.next_le, hops.same, hops.second, hops.first,
    fun p hp hp' => hops.disjoint p hp' hp, hops.range₁, hops.range₀⟩

theorem Operands.joined
    (hops : Operands h h₂ b0 b1 e₀ e₁ tails₀ tails₁ nodes₀ nodes₁) {value : Bool}
    {g' : Graph} (hjoined : Joined h₂.graph g' value b0 b1 tails₀ tails₁)
    (hframe : ∀ p, p ∉ nodes₀ → p ∉ nodes₁ → g' p = h₂.graph p) :
    Built h ⟨g', h₂.next⟩ b1 (.join value e₀ e₁)
      (joinTails h₂.graph b0 value tails₀ tails₁) (nodes₀ ++ nodes₁) := by
  refine ⟨hops.next_le, ?_, ?_, hjoined.frag hops.first hops.second hops.disjoint⟩
  · intro p hp
    change g' p = h.graph p
    rw [hframe, hops.same p hp]
    · intro hmem
      have hle := (hops.range₀ p hmem).1
      omega
    · intro hmem
      have hle := (hops.range₁ p hmem).1
      omega
  · intro p hp
    exact (List.mem_append.mp hp).elim (hops.range₀ p) (hops.range₁ p)

theorem Operands.genAnd
    (hops : Operands h h₂ b0 b1 e₀ e₁ tails₀ tails₁ nodes₀ nodes₁) :
    ∃ h₃ tails nodes, genAnd b0 b1 h₂ = some ((), h₃) ∧
      Built h h₃ b1 (.and e₀ e₁) tails nodes := by
  obtain ⟨g', hcall, hjoined, hframe⟩ := genAnd_apply hops.first hops.second
    hops.disjoint (fun p hp => (hops.range₀ p hp).2)
    fun p hp => (hops.range₁ p hp).2
  exact ⟨_, _, _, hcall, hops.joined hjoined hframe⟩

theorem Operands.genOr
    (hops : Operands h h₂ b0 b1 e₀ e₁ tails₀ tails₁ nodes₀ nodes₁) :
    ∃ h₃ tails nodes, genOr b0 b1 h₂ = some ((), h₃) ∧
      Built h h₃ b1 (.or e₀ e₁) tails nodes := by
  obtain ⟨g', hcall, hjoined, hframe⟩ := genOr_apply hops.first hops.second
    hops.disjoint (fun p hp => (hops.range₀ p hp).2)
    fun p hp => (hops.range₁ p hp).2
  exact ⟨_, _, _, hcall, hops.joined hjoined hframe⟩

theorem Builds.and (hfirst : Builds m₀ e₀) (hsecond : Builds m₁ e₁) :
    Builds (do let b0 ← m₀; let b1 ← m₁; genAnd b0 b1; return b1)
      (.and e₀ e₁) := by
  intro h
  obtain ⟨b0, h₁, _, _, hcall₀, hbuilt₀⟩ := hfirst h
  obtain ⟨b1, h₂, _, _, hcall₁, hbuilt₁⟩ := hsecond h₁
  obtain ⟨h₃, tails, nodes, hcall, hbuilt⟩ := (hbuilt₀.operands hbuilt₁).genAnd
  refine ⟨b1, h₃, tails, nodes, ?_, hbuilt⟩
  simp only [Gen.bind_apply, hcall₀, hcall₁, hcall, Option.bind_some,
    Gen.pure_apply]

theorem Builds.or (hfirst : Builds m₀ e₀) (hsecond : Builds m₁ e₁) :
    Builds (do let b0 ← m₀; let b1 ← m₁; genOr b0 b1; return b1) (.or e₀ e₁) := by
  intro h
  obtain ⟨b0, h₁, _, _, hcall₀, hbuilt₀⟩ := hfirst h
  obtain ⟨b1, h₂, _, _, hcall₁, hbuilt₁⟩ := hsecond h₁
  obtain ⟨h₃, tails, nodes, hcall, hbuilt⟩ := (hbuilt₀.operands hbuilt₁).genOr
  refine ⟨b1, h₃, tails, nodes, ?_, hbuilt⟩
  simp only [Gen.bind_apply, hcall₀, hcall₁, hcall, Option.bind_some,
    Gen.pure_apply]

/-- The second operand has been built first. -/
theorem Builds.or_swapped (hsecond : Builds m₁ e₁) (hfirst : Builds m₀ e₀) :
    Builds (do let b1 ← m₁; let b0 ← m₀; genOr b0 b1; return b1) (.or e₀ e₁) := by
  intro h
  obtain ⟨b1, h₁, _, _, hcall₁, hbuilt₁⟩ := hsecond h
  obtain ⟨b0, h₂, _, _, hcall₀, hbuilt₀⟩ := hfirst h₁
  obtain ⟨h₃, tails, nodes, hcall, hbuilt⟩ :=
    (hbuilt₁.operands hbuilt₀).symm.genOr
  refine ⟨b1, h₃, tails, nodes, ?_, hbuilt⟩
  simp only [Gen.bind_apply, hcall₀, hcall₁, hcall, Option.bind_some,
    Gen.pure_apply]

theorem Builds.not (hinner : Builds m e) :
    Builds (do let b ← m; genNot b; return b) (.not e) := by
  intro h
  obtain ⟨b, h₁, tails, nodes, hcall, hbuilt⟩ := hinner h
  have hfrag := hbuilt.frag
  have hne : ∀ p, p < h.next → p ≠ b := by
    rintro p hp rfl
    have hle := (hbuilt.range p hfrag.last).1
    omega
  refine ⟨b, ⟨h₁.graph.flip b, h₁.next⟩, fun value => tails (!value), nodes, ?_,
    hbuilt.next_le, ?_, hbuilt.range, ?_⟩
  · simp only [Gen.bind_apply, hcall, Option.bind_some, genNot, flipSense_apply,
      Gen.pure_apply]
  · intro p hp
    change h₁.graph.flip b p = _
    rw [flip_of_ne _ _ (hne p hp), hbuilt.same p hp]
  · exact hfrag.not

theorem genTest_builds (test : Test) : Builds (genTest test) (.test test) := by
  intro h
  let b : Block :=
    ⟨test.stmts, .jump test.op test.src, test.k, 0, 0, 0, false, none, none, h.next⟩
  refine ⟨h.next, ⟨Function.update h.graph h.next b, h.next + 1⟩, fun _ => [],
    [h.next], ?_, Nat.le_succ _, ?_, ?_, ?_⟩
  · simp only [genTest, newBlock, setBlock, Gen.bind_apply, Option.bind_some,
      Gen.pure_apply, Function.update_self, Function.update_idem]
    rfl
  · intro p hp
    exact Function.update_of_ne (Nat.ne_of_lt hp) ..
  · intro p hp
    rw [List.mem_singleton] at hp
    subst hp
    exact ⟨le_rfl, Nat.lt_succ_self _⟩
  · have hself : Function.update h.graph h.next b h.next = b :=
      Function.update_self ..
    refine .of_test ⟨?_, ?_, ?_, ?_, ?_⟩ ?_ (fun side => ?_) ?_
    all_goals simp only [Graph.edge, hself]
    all_goals first | rfl | (cases side <;> rfl)

theorem genExpr_builds (e : Expr) : Builds (genExpr e) e := by
  induction e with
  | test leaf => exact genTest_builds leaf
  | and e₀ e₁ ih₀ ih₁ => exact ih₀.and ih₁
  | or e₀ e₁ ih₀ ih₁ => exact ih₀.or ih₁
  | not e ih => exact ih.not

end Builds

/-! ## finish_parse -/

/-- Block `p` returns `v`. -/
structure Returns (g : Graph) (p : ℕ) (v : UInt32) : Prop where
  stmts : (g p).stmts = []
  code : (g p).code = .ret .K
  k : (g p).k = v
  edge : ∀ side, g.edge p side = none
  longjt : (g p).longjt = 0
  longjf : (g p).longjf = 0

theorem genRetblk_apply (v : UInt32) (h : Heap) :
    ∃ g, genRetblk v h = some (h.next, ⟨g, h.next + 1⟩) ∧ Returns g h.next v ∧
      ∀ p, p ≠ h.next → g p = h.graph p := by
  let b : Block := ⟨[], .ret .K, v, 0, 0, 0, false, none, none, h.next⟩
  have hself : Function.update h.graph h.next b h.next = b :=
    Function.update_self ..
  refine ⟨Function.update h.graph h.next b, ?_, ?_, fun p hp =>
    Function.update_of_ne hp ..⟩
  · simp only [genRetblk, newBlock, setBlock, Gen.bind_apply, Option.bind_some,
      Gen.pure_apply, Function.update_self, Function.update_idem]
    rfl
  · refine ⟨?_, ?_, ?_, fun side => ?_, ?_, ?_⟩
    all_goals simp only [Graph.edge, hself]
    all_goals first | rfl | (cases side <;> rfl)

theorem Returns.congr
    {g g' : Graph} {p : ℕ} {v : UInt32} (hret : Returns g p v) (hsame : g' p = g p) :
    Returns g' p v := by
  obtain ⟨hstmts, hcode, hk, hedge, hjt, hjf⟩ := hret
  rw [← hsame] at hstmts hcode hk hjt hjf
  refine ⟨hstmts, hcode, hk, fun side => ?_, hjt, hjf⟩
  rw [Graph.edge, hsame]
  exact hedge side

/-- The open branches of a piece are led to the two returns. -/
theorem finishParse_apply
    {h : Heap} {b : ℕ} {tails : Bool → List Hole} {e : Expr} {nodes : List ℕ}
    (hfrag : Frag h.graph b tails e nodes) (hbound : ∀ p ∈ nodes, p < h.next)
    (snaplen : UInt32) :
    ∃ g' root, finishParse b snaplen h = some (root, ⟨g', h.next + 2⟩) ∧
      Implements g' e root (some h.next) (some (h.next + 1)) nodes ∧
      Returns g' h.next snaplen ∧ Returns g' (h.next + 1) 0 := by
  obtain ⟨g₁, hcall₁, hret₁, hsame₁⟩ := genRetblk_apply snaplen h
  have hold₁ : ∀ p ∈ nodes, g₁ p = h.graph p := fun p hp =>
    hsame₁ p (Nat.ne_of_lt (hbound p hp))
  -- the branches for `true`
  obtain ⟨g₂, hg₂⟩ : ∃ g₂, g₂ = fill g₁ (h.graph.holes b tails true)
    (some h.next) := ⟨_, rfl⟩
  have hfill₁ : backpatch b h.next ⟨g₁, h.next + 1⟩ =
      some ((), ⟨g₂, h.next + 1⟩) := by
    rw [hg₂]
    refine hfrag.backpatch_apply hbound (Nat.le_succ _) true ?_ ?_ _
    · refine (hfrag.linked true).congr fun hole hhole => ?_
      rw [Graph.edge, hold₁ _ (hfrag.holes_mem hhole)]
      rfl
    · refine hfrag.holes_sense true ?_ fun p hp _ => by rw [hold₁ p hp]
      rw [hold₁ b hfrag.last]
      simp
  obtain ⟨g₃, hcall₃, hret₃, hsame₃⟩ :=
    genRetblk_apply 0 ⟨g₂.flip b, h.next + 1⟩
  replace hsame₃ : ∀ p, p ≠ h.next + 1 → g₃ p = g₂.flip b p := hsame₃
  have hold₃ : ∀ p ∈ nodes, g₃ p = g₂.flip b p := by
    intro p hp
    have hlt := hbound p hp
    exact hsame₃ p (by omega)
  have hedge₃ : ∀ p ∈ nodes, ∀ side, g₃.edge p side =
      if (p, side) ∈ h.graph.holes b tails true then some h.next
      else h.graph.edge p side := by
    intro p hp side
    have hflip := edge_flip g₂ b p side
    rw [Graph.edge] at hflip
    rw [Graph.edge, hold₃ p hp, hflip, hg₂, edge_fill, Graph.edge, hold₁ p hp]
    rfl
  -- the branches for `false`
  obtain ⟨g₄, hg₄⟩ : ∃ g₄, g₄ = fill g₃ (h.graph.holes b tails false)
    (some (h.next + 1)) := ⟨_, rfl⟩
  have hfill₃ : backpatch b (h.next + 1) ⟨g₃, h.next + 2⟩ =
      some ((), ⟨g₄, h.next + 2⟩) := by
    rw [hg₄]
    refine hfrag.backpatch_apply hbound (Nat.le_add_right _ 2) false ?_ ?_ _
    · refine (hfrag.linked false).congr fun hole hhole => ?_
      rw [hedge₃ _ (hfrag.holes_mem hhole), if_neg]
      exact hfrag.holes_disjoint hhole
    · refine hfrag.holes_sense false ?_ fun p hp hpb => ?_
      · rw [hold₃ b hfrag.last, flip_sense_self, hg₂, fill_sense,
          hold₁ b hfrag.last]
        simp
      · rw [hold₃ p hp, flip_of_ne _ _ hpb, hg₂, fill_sense, hold₁ p hp]
  refine ⟨g₄, (h.graph b).head, ?_, ?_, ?_, ?_⟩
  · simp only [finishParse, Gen.bind_apply, hcall₁, Option.bind_some, hfill₁,
      flipSense_apply, hcall₃, hfill₃, getBlock_apply, Gen.pure_apply]
    rw [hg₄, fill_head, hold₃ b hfrag.last, flip_head, hg₂, fill_head,
      hold₁ b hfrag.last]
  · refine hfrag.implements g₄
      (fun value => if value then some h.next else some (h.next + 1)) ⟨?_, ?_, ?_⟩
    · intro p hp test htest
      have htest₁ : Tests g₁ p test := htest.congr (hold₁ p hp)
      have htest₂ : Tests (g₂.flip b) p test := by
        rw [hg₂]
        exact (htest₁.fill _ _).flip b
      rw [hg₄]
      exact (htest₂.congr (hold₃ p hp)).fill _ _
    · intro value hole hhole
      have hmem := hfrag.holes_mem hhole
      rw [hg₄, edge_fill]
      cases value with
      | true =>
          have hother : (hole.1, hole.2) ∉ h.graph.holes b tails false :=
            hfrag.holes_disjoint hhole
          rw [if_neg hother, hedge₃ _ hmem, if_pos hhole]
          rfl
      | false =>
          rw [if_pos hhole]
          rfl
    · intro p hp side hclosed
      rw [hg₄, edge_fill, if_neg (hclosed false), hedge₃ p hp,
        if_neg (hclosed true)]
  · have hfresh : ∀ value side, (h.next, side) ∉ h.graph.holes b tails value :=
      fun value side hmem =>
        absurd (hbound _ (hfrag.holes_mem hmem)) (lt_irrefl _)
    have hb : h.next ≠ b := fun heq =>
      absurd (hbound b hfrag.last) (heq ▸ lt_irrefl _)
    refine hret₁.congr ?_
    rw [hg₄, fill_of_not_mem (hfresh false), hsame₃ _ (Nat.ne_of_lt
      (Nat.lt_succ_self _)), flip_of_ne _ _ hb, hg₂,
      fill_of_not_mem (hfresh true)]
  · have hfresh : ∀ side, (h.next + 1, side) ∉ h.graph.holes b tails false := by
      intro side hmem
      have hlt := hbound _ (hfrag.holes_mem hmem)
      simp only at hlt
      omega
    refine hret₃.congr ?_
    rw [hg₄, fill_of_not_mem hfresh]

/-! ## The finished graph -/

section Finished

variable {g : Graph} {e : Expr} {root t f : ℕ} {nodes : List ℕ} {v : UInt32}

theorem Returns.graphStep_eq
    (hret : Returns g t v) (input : Input) (regs : Regs) :
    graphStep g input ⟨some t, regs⟩ = .error (.ret v) := by
  simp only [graphStep, Block.run, hret.stmts, hret.code, hret.k]
  rfl

/-- The graph treats a packet as the expression says. -/
theorem Implements.ends
    (himpl : Implements g e root (some t) (some f) nodes) (htrue : Returns g t v)
    (hfalse : Returns g f 0) (input : Input) (regs : Regs) :
    Ends g input ⟨some root, regs⟩ (e.outcome v input regs) := by
  obtain ⟨n, hn⟩ := himpl.run input regs
  rw [Expr.outcome]
  cases heval : e.eval input regs with
  | error stop =>
      rw [heval] at hn
      exact ⟨n, hn⟩
  | ok value =>
      obtain ⟨holds, regs'⟩ := value
      rw [heval] at hn
      refine ⟨n + 1, ?_⟩
      rw [graphSteps_add, hn]
      change (graphStep g input ⟨if holds then some t else some f, regs'⟩ >>= _) = _
      cases holds with
      | true => exact congrArg (· >>= _) (htrue.graphStep_eq input regs')
      | false => exact congrArg (· >>= _) (hfalse.graphStep_eq input regs')

theorem Implements.flowGraph
    (himpl : Implements g e root (some t) (some f) nodes) (htrue : Returns g t v)
    (hfalse : Returns g f 0) (hnodup : (nodes ++ [t, f]).Nodup) :
    FlowGraph g (nodes ++ [t, f]).toFinset (rankIn (nodes ++ [t, f])) := by
  have hexits : Ordered g {none} [t, f] :=
    ⟨fun side => Or.inl (htrue.edge side), fun side => Or.inl (hfalse.edge side),
      trivial⟩
  have hordered : Ordered g {none} (nodes ++ [t, f]) := by
    refine himpl.ordered.append hexits ?_
    rintro exit (rfl | rfl)
    · exact Or.inr ⟨t, by simp, rfl⟩
    · exact Or.inr ⟨f, by simp, rfl⟩
  have hsome : ∀ p ∈ nodes, ∀ side, ∃ q, g.edge p side = some q :=
    fun p hp side => himpl.ordered.edge_some (by simp) hp side
  have hcases : ∀ p ∈ (nodes ++ [t, f]).toFinset,
      p ∈ nodes ∨ Returns g p v ∨ Returns g p 0 := by
    intro p hp
    rw [List.mem_toFinset, List.mem_append] at hp
    rcases hp with hp | hp
    · exact Or.inl hp
    · rcases List.mem_pair.mp hp with rfl | rfl
      · exact Or.inr (Or.inl htrue)
      · exact Or.inr (Or.inr hfalse)
  refine ⟨?_, ?_⟩
  · intro p hp op src hcode
    have hnode : p ∈ nodes := by
      rcases hcases p hp with hnode | hret | hret
      · exact hnode
      · simp [hret.code] at hcode
      · simp [hret.code] at hcode
    obtain ⟨q, hq⟩ := hsome p hnode false
    obtain ⟨r, hr⟩ := hsome p hnode true
    have hp' := List.mem_toFinset.mp hp
    obtain ⟨hqmem, hqlt⟩ := hordered.rank_lt hnodup hp' hq
    obtain ⟨hrmem, hrlt⟩ := hordered.rank_lt hnodup hp' hr
    exact ⟨q, List.mem_toFinset.mpr hqmem, r, List.mem_toFinset.mpr hrmem, hq, hr,
      hqlt, hrlt⟩
  · intro p hp value hcode
    rcases hcases p hp with hnode | hret | hret
    · obtain ⟨test, _, htest⟩ := himpl.tests p hnode
      simp [htest.code] at hcode
    · exact ⟨hret.edge false, hret.edge true⟩
    · exact ⟨hret.edge false, hret.edge true⟩

end Finished

/-! ## The whole compilation -/

def Expr.valid (e : Expr) : Prop :=
  ∀ test ∈ e.leaves, ∀ stmt ∈ test.stmts, stmt.valid = true

/-- Whatever builds pieces for `e`, the program made of it is accepted and
treats packets as `e` says. -/
theorem Builds.compile
    {m : Gen ℕ} {e : Expr} (hbuilds : Builds m e) (hvalid : e.valid)
    (hsize : e.size + 6 < 2 ^ 31) {snaplen : UInt32} (hsnaplen : snaplen ≠ 0) :
    ∃ prog, pcapCompile (some m) snaplen = some prog ∧
      installBpfProgram prog = some prog ∧
      ∀ input mem, bpfFilter (some prog) input mem prog.length =
        some (e.outcome snaplen input ⟨0, 0, mem⟩) := by
  obtain ⟨b, h, tails, nodes, hcall, hbuilt⟩ := hbuilds Heap.empty
  obtain ⟨g, root, hfinish, himpl, htrue, hfalse⟩ := finishParse_apply hbuilt.frag
    (fun p hp => (hbuilt.range p hp).2) snaplen
  have hnodup : (nodes ++ [h.next, h.next + 1]).Nodup := by
    rw [List.nodup_append]
    refine ⟨hbuilt.frag.nodup, by simp, ?_⟩
    intro p hp q hq heq
    have hlt := (hbuilt.range p hp).2
    simp only [List.mem_cons, List.not_mem_nil, or_false] at hq
    omega
  have hflow := himpl.flowGraph htrue hfalse hnodup
  have hmem : ∀ p ∈ (nodes ++ [h.next, h.next + 1]).toFinset,
      (∃ test ∈ e.leaves, Tests g p test) ∨ ∃ v, Returns g p v := by
    intro p hp
    rw [List.mem_toFinset, List.mem_append] at hp
    rcases hp with hp | hp
    · exact Or.inl (himpl.tests p hp)
    · rcases List.mem_pair.mp hp with rfl | rfl
      · exact Or.inr ⟨snaplen, htrue⟩
      · exact Or.inr ⟨0, hfalse⟩
  have hfresh : ∀ p ∈ (nodes ++ [h.next, h.next + 1]).toFinset,
      (g p).longjt = 0 ∧ (g p).longjf = 0 := by
    intro p hp
    rcases hmem p hp with ⟨test, _, htest⟩ | ⟨v, hret⟩
    · exact ⟨htest.longjt, htest.longjf⟩
    · exact ⟨hret.longjt, hret.longjf⟩
  have hstmts : ∀ p ∈ (nodes ++ [h.next, h.next + 1]).toFinset,
      ∀ stmt ∈ (g p).stmts, stmt.valid = true := by
    intro p hp stmt hstmt
    rcases hmem p hp with ⟨test, htest_mem, htest⟩ | ⟨v, hret⟩
    · exact hvalid test htest_mem stmt (htest.stmts ▸ hstmt)
    · rw [hret.stmts] at hstmt
      exact absurd hstmt List.not_mem_nil
  have hlen : ∑ p ∈ (nodes ++ [h.next, h.next + 1]).toFinset,
      ((g p).stmts.length + 3) < 2 ^ 31 := by
    rw [List.sum_toFinset _ hnodup, List.map_append, List.sum_append, himpl.size]
    simpa [htrue.stmts, hfalse.stmts] using hsize
  have hlength : (nodes ++ [h.next, h.next + 1]).length ≤ h.next + 2 := by
    have hsub : nodes ⊆ List.range h.next := fun p hp =>
      List.mem_range.mpr (hbuilt.range p hp).2
    have hle := (List.subperm_of_subset hbuilt.frag.nodup hsub).length_le
    rw [List.length_range] at hle
    rw [List.length_append]
    simpa using hle
  have hroot : root ∈ (nodes ++ [h.next, h.next + 1]).toFinset :=
    List.mem_toFinset.mpr (List.mem_append_left _ himpl.root_mem)
  have hdepth : rankIn (nodes ++ [h.next, h.next + 1]) root < h.next + 3 :=
    ((rankIn_le _ root).trans hlength).trans_lt (Nat.lt_succ_self _)
  have htries : unmarked (nodes ++ [h.next, h.next + 1]).toFinset g <
      2 * (h.next + 2) + 1 := by
    have hcard := List.toFinset_card_le (nodes ++ [h.next, h.next + 1])
    have hle := unmarked_le (nodes ++ [h.next, h.next + 1]).toFinset g
    omega
  obtain ⟨prog, g', done, hprog, hshape, hmarks, hconverted⟩ :=
    icodeToFcode_spec hroot hdepth hflow (branchMarks_of_fresh hfresh) htries
  obtain ⟨hinstall, hfilter⟩ :=
    hconverted.correct hshape hmarks hflow hroot hstmts hlen
  refine ⟨prog, ?_, hinstall, fun input mem => (hfilter input mem _).mp
    (himpl.ends htrue hfalse input _)⟩
  have hbuild : buildRoot (some m) snaplen Heap.empty =
      some (root, ⟨g, h.next + 2⟩) := by
    simp only [buildRoot, Gen.bind_apply, hcall, Option.bind_some, hfinish]
  rw [pcapCompile, if_neg hsnaplen, hbuild]
  exact hprog

/-- The back end of `pcap_compile`, from the actions of the grammar to the
accepted program, preserves the meaning of every expression: `snaplen` bytes of
a packet are kept if the expression holds for it, none if not, and a read
behind its end rejects it. -/
theorem pcapCompile_correct
    (e : Expr) (hvalid : e.valid) (hsize : e.size + 6 < 2 ^ 31)
    {snaplen : UInt32} (hsnaplen : snaplen ≠ 0) :
    ∃ prog, pcapCompile (some (genExpr e)) snaplen = some prog ∧
      installBpfProgram prog = some prog ∧
      ∀ input mem, bpfFilter (some prog) input mem prog.length =
        some (e.outcome snaplen input ⟨0, 0, mem⟩) :=
  (genExpr_builds e).compile hvalid hsize hsnaplen

/-- The tests of `len > 100 and not udp`, without those for fragments. -/
def longNotUdp : Expr :=
  .and
    (.test ⟨[⟨some .ldLen, 0⟩, ⟨some .st, 0⟩, ⟨some .ldImm, 100⟩, ⟨some .st, 1⟩,
      ⟨some .ldxMem, 1⟩, ⟨some .ldMem, 0⟩], .jgt, .X, 0⟩)
    (.not (.test ⟨[⟨some (.ldAbs .B), 23⟩], .jeq, .K, 17⟩))

theorem pcapCompile_correct_longNotUdp :
    ∃ prog, pcapCompile (some (genExpr longNotUdp)) 8192 = some prog ∧
      installBpfProgram prog = some prog ∧
      ∀ input mem, bpfFilter (some prog) input mem prog.length =
        some (longNotUdp.outcome 8192 input ⟨0, 0, mem⟩) := by
  have hvalid : longNotUdp.valid := by
    unfold Expr.valid
    decide
  exact pcapCompile_correct longNotUdp hvalid (by decide) (by decide)

example : pcapCompile (some (genExpr longNotUdp)) 8192 =
    some [⟨0x80, 0, 0, 0⟩, ⟨0x02, 0, 0, 0⟩, ⟨0x00, 0, 0, 100⟩, ⟨0x02, 0, 0, 1⟩,
      ⟨0x61, 0, 0, 1⟩, ⟨0x60, 0, 0, 0⟩, ⟨0x2d, 0, 3, 0⟩, ⟨0x30, 0, 0, 23⟩,
      ⟨0x15, 1, 0, 17⟩, ⟨0x06, 0, 0, 8192⟩, ⟨0x06, 0, 0, 0⟩] := by
  decide +kernel

end Bpf
end StockFeed
