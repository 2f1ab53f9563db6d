import StockFeed.BpfValidate
import StockFeed.FilterGraph

/-!
# From a flowgraph to code

`icode_to_fcode` of `optimize.c` counts the instructions of a graph, allocates
them and fills the array from its end: `convert_code_r` lays a block out once
both its successors are.  A conditional jump reaches 255 instructions.  One
that has to reach further is marked, and the layout starts again with room for
an unconditional jump behind it.

For every graph without cycles this ends, the array is filled to its start,
`bpf_validate` accepts it, and it ends every packet as the graph does.
-/

namespace StockFeed
namespace Bpf

/-! ## count_stmts -/

/-- The instructions of a statement list; a `NOP` has none. -/
def stmtInsns (stmts : List Stmt) : List Insn :=
  stmts.filterMap fun stmt => stmt.code.map fun op => ⟨op.code, 0, 0, stmt.k⟩

def slength (stmts : List Stmt) : ℕ :=
  stmts.countP fun stmt => stmt.code.isSome

/-- The instructions block `p` takes up. -/
def Block.size (b : Block) : ℕ :=
  slength b.stmts + 1 + b.longjt + b.longjf

/-- `count_stmts`, with the marked blocks passed along.  The fuel bounds the
depth of the recursion. -/
def countStmts (g : Graph) : ℕ → Option ℕ → List ℕ → Option (ℕ × List ℕ)
  | _, none, marked => some (0, marked)
  | 0, some p, marked => if p ∈ marked then some (0, marked) else none
  | fuel + 1, some p, marked =>
      if p ∈ marked then some (0, marked)
      else do
        let (nt, marked) ← countStmts g fuel (g p).jt (p :: marked)
        let (nf, marked) ← countStmts g fuel (g p).jf marked
        return ((g p).size + (nt + nf), marked)

/-! ## convert_code_r -/

/-- `fp` has `n` instructions; `code` are those from `ftail` on. -/
structure Layout where
  graph : Graph
  marked : List ℕ
  n : ℕ
  code : List Insn

/-- Block `p` takes its room from the array, which sets its offset. -/
def Layout.place (l : Layout) (p : ℕ) : Graph := fun q =>
  if q = p then
    { l.graph p with offset := l.n - (l.code.length + (l.graph p).size) }
  else l.graph q

/-- The difference of two offsets as a `u_int`. -/
def branchOffset (target here : ℤ) : ℕ :=
  ((target - here - 1) % 2 ^ 32).toNat

/-- The distance from the branch of `p` to block `q`. -/
def edgeOffset (g : Graph) (p q : ℕ) : ℕ :=
  branchOffset (g q).offset ((g p).offset + slength (g p).stmts)

def jaInsn (k : ℕ) : Insn :=
  ⟨Op.ja.code, 0, 0, UInt32.ofNat k⟩

/-- An instruction of the freshly zeroed array. -/
def zeroInsn : Insn := ⟨0, 0, 0, 0⟩

/-- The branch instruction of block `b` and the slots behind it.  A target at a
distance of 256 or more is reached by an unconditional jump in the next slot. -/
def branchInsns (b : Block) (offt offf : ℕ) : List Insn :=
  let (jt, jas) :=
    if 256 ≤ offt then (0, [jaInsn (offt - 1)]) else (offt, [])
  let (jf, jas) :=
    if 256 ≤ offf then (jas.length, jas ++ [jaInsn (offf - (jas.length + 1))])
    else (offf, jas)
  ⟨b.code.op.code, UInt8.ofNat jt, UInt8.ofNat jf, b.k⟩ ::
    (jas ++ List.replicate (b.longjt + b.longjf - jas.length) zeroInsn)

/-- The end of `convert_code_r`: room for block `p` is taken from the array and
filled, or a branch is marked and the attempt given up. -/
def emitBlock (p : ℕ) (l : Layout) : Option (Bool × Layout) :=
  let graph := l.place p
  let b := graph p
  match b.jt, b.jf with
  | none, _ =>
      let code := stmtInsns b.stmts ++
        (⟨b.code.op.code, 0, 0, b.k⟩ ::
          List.replicate (b.longjt + b.longjf) zeroInsn)
      some (true, { l with graph := graph, code := code ++ l.code })
  | some t, some f =>
      let offt := edgeOffset graph p t
      let offf := edgeOffset graph p f
      let markT := { b with longjt := b.longjt + 1 }
      let markF := { b with longjf := b.longjf + 1 }
      if 256 ≤ offt ∧ b.longjt = 0 then
        some (false, { l with graph := Function.update graph p markT })
      else if 256 ≤ offf ∧ b.longjf = 0 then
        some (false, { l with graph := Function.update graph p markF })
      else
        let code := stmtInsns b.stmts ++ branchInsns b offt offf
        some (true, { l with graph := graph, code := code ++ l.code })
  | some _, none => none

/-- `convert_code_r`; `none` is a recursion deeper than the fuel, or a jump
without a second successor. -/
def convertCodeR : ℕ → Option ℕ → Layout → Option (Bool × Layout)
  | _, none, l => some (true, l)
  | 0, some p, l => if p ∈ l.marked then some (true, l) else none
  | fuel + 1, some p, l =>
      if p ∈ l.marked then some (true, l)
      else do
        let l := { l with marked := p :: l.marked }
        let (ok, l) ← convertCodeR fuel (l.graph p).jf l
        if ok then do
          let (ok, l) ← convertCodeR fuel (l.graph p).jt l
          if ok then emitBlock p l else return (false, l)
        else return (false, l)

/-! ## icode_to_fcode -/

/-- The loop of `icode_to_fcode`, for at most `tries` turns. -/
def icodeToFcode (depth : ℕ) : ℕ → Graph → ℕ → Option (List Insn)
  | 0, _, _ => none
  | tries + 1, g, root => do
      let (n, _) ← countStmts g depth (some root) []
      let (ok, l) ← convertCodeR depth (some root) ⟨g, [], n, []⟩
      if ok then
        return List.replicate (n - l.code.length) zeroInsn ++ l.code
      else icodeToFcode depth tries l.graph root

/-- `install_bpf_program`, without the copy. -/
def installBpfProgram (prog : List Insn) : Option (List Insn) :=
  if bpfValidate prog then some prog else none

theorem Layout.place_self (l : Layout) (p : ℕ) :
    l.place p p = { l.graph p with
      offset := l.n - (l.code.length + (l.graph p).size) } :=
  if_pos rfl

theorem Layout.place_of_ne (l : Layout) {p q : ℕ} (hne : q ≠ p) :
    l.place p q = l.graph q :=
  if_neg hne

/-! ## Code in a program -/

theorem length_stmtInsns (stmts : List Stmt) :
    (stmtInsns stmts).length = slength stmts := by
  induction stmts with
  | nil => rfl
  | cons stmt rest ih =>
      obtain ⟨code, k⟩ := stmt
      cases code with
      | none => simpa [stmtInsns, slength] using ih
      | some op => simpa [stmtInsns, slength] using ih

section Running

variable {prog : List Insn} {input : Input}

theorem fetch_append
    {pre post : List Insn} {insn : Insn} (hprog : prog = pre ++ insn :: post) :
    fetch prog pre.length = .ok insn := by
  rw [fetch, if_pos (Int.natCast_nonneg _), Int.toNat_natCast, hprog,
    List.getElem?_append_right le_rfl, Nat.sub_self]
  rfl

theorem step_append
    {pre post : List Insn} {insn : Insn} (hprog : prog = pre ++ insn :: post)
    (op : Op) (hop : insn.code = op.code) (regs : Regs) :
    step prog input ⟨pre.length, regs⟩ =
      execOp op insn input ⟨pre.length, regs⟩ := by
  rw [step]
  simp only [fetch_append hprog, bind, Except.bind, hop, Op.ofCode_code]

/-- Statements which are in the program are executed one after another. -/
theorem steps_stmts
    (stmts : List Stmt) {pre post : List Insn}
    (hprog : prog = pre ++ stmtInsns stmts ++ post) {regs regs' : Regs}
    (hexec : execStmts input stmts regs = .ok regs') :
    steps prog input (slength stmts) ⟨pre.length, regs⟩ =
      .ok ⟨pre.length + slength stmts, regs'⟩ := by
  induction stmts generalizing pre regs with
  | nil =>
      rw [execStmts, Except.ok.injEq] at hexec
      rw [hexec]
      simp [slength, steps]
  | cons stmt rest ih =>
      obtain ⟨code, k⟩ := stmt
      rw [execStmts, bind_eq_ok] at hexec
      obtain ⟨next, hstmt, hrest⟩ := hexec
      cases code with
      | none =>
          rw [Stmt.exec, Except.ok.injEq] at hstmt
          subst hstmt
          simpa [slength, stmtInsns] using ih (by simpa [stmtInsns] using hprog) hrest
      | some op =>
          have hsplit : prog = pre ++ ⟨op.code, 0, 0, k⟩ ::
              (stmtInsns rest ++ post) := by
            simpa [stmtInsns] using hprog
          have hlength : slength (⟨some op, k⟩ :: rest) = slength rest + 1 := by
            simp [slength]
          have hstep : step prog input ⟨pre.length, regs⟩ =
              .ok ⟨pre.length + 1, next⟩ := by
            rw [step_append hsplit (.plain op) rfl]
            change op.exec k input regs = .ok next at hstmt
            simp only [execOp, hstmt, bind, Except.bind, pure, Except.pure]
          have hnext : prog = (pre ++ [⟨op.code, 0, 0, k⟩]) ++
              stmtInsns rest ++ post := by
            rw [hsplit]
            simp
          have hmore := ih hnext hrest
          rw [List.length_append, List.length_singleton, Nat.cast_add,
            Nat.cast_one] at hmore
          rw [hlength, steps_of_step hstep, hmore, Nat.cast_add, Nat.cast_one]
          congr 2
          ring

theorem steps_stmts_stop
    (stmts : List Stmt) {pre post : List Insn}
    (hprog : prog = pre ++ stmtInsns stmts ++ post) {regs : Regs} {stop : Stop}
    (hexec : execStmts input stmts regs = .error stop) :
    ∃ n, steps prog input n ⟨pre.length, regs⟩ = .error stop := by
  induction stmts generalizing pre regs with
  | nil => simp [execStmts] at hexec
  | cons stmt rest ih =>
      obtain ⟨code, k⟩ := stmt
      rw [execStmts, bind_eq_error] at hexec
      cases code with
      | none =>
          rcases hexec with hstmt | ⟨next, hstmt, hrest⟩
          · simp [Stmt.exec] at hstmt
          · rw [Stmt.exec, Except.ok.injEq] at hstmt
            subst hstmt
            exact ih (by simpa [stmtInsns] using hprog) hrest
      | some op =>
          have hsplit : prog = pre ++ ⟨op.code, 0, 0, k⟩ ::
              (stmtInsns rest ++ post) := by
            simpa [stmtInsns] using hprog
          have hstep : step prog input ⟨pre.length, regs⟩ = _ :=
            step_append hsplit (.plain op) rfl regs
          rcases hexec with hstmt | ⟨next, hstmt, hrest⟩
          · change op.exec k input regs = .error stop at hstmt
            simp only [execOp, hstmt, bind, Except.bind] at hstep
            exact ⟨1, by rw [steps, hstep]; rfl⟩
          · change op.exec k input regs = .ok next at hstmt
            simp only [execOp, hstmt, bind, Except.bind, pure, Except.pure]
              at hstep
            have hnext : prog = (pre ++ [⟨op.code, 0, 0, k⟩]) ++
                stmtInsns rest ++ post := by
              rw [hsplit]
              simp
            obtain ⟨n, hmore⟩ := ih hnext hrest
            rw [List.length_append, List.length_singleton, Nat.cast_add,
              Nat.cast_one] at hmore
            exact ⟨n + 1, by rw [steps_of_step hstep, hmore]⟩

end Running

/-! ## Branches -/

/-- The displacement `d` of a branch instruction leads `off` instructions
ahead, at once or over an unconditional jump in the slots behind it. -/
def Leads (slots : List Insn) (off d : ℕ) : Prop :=
  d = off ∨ (d + 1 ≤ off ∧ slots[d]? = some (jaInsn (off - (d + 1))))

theorem branchInsns_leads (b : Block) (offt offf : ℕ) :
    ∃ jt jf slots, branchInsns b offt offf =
        ⟨b.code.op.code, jt, jf, b.k⟩ :: slots ∧
      Leads slots offt jt.toNat ∧ Leads slots offf jf.toNat := by
  unfold branchInsns
  by_cases ht : 256 ≤ offt <;> by_cases hf : 256 ≤ offf
  · simp only [if_pos ht, if_pos hf]
    refine ⟨_, _, _, rfl, ?_, ?_⟩
    · exact Or.inr ⟨by simp; omega, by simp⟩
    · exact Or.inr ⟨by simp; omega, by simp⟩
  · simp only [if_pos ht, if_neg hf]
    refine ⟨_, _, _, rfl, ?_, ?_⟩
    · exact Or.inr ⟨by simp; omega, by simp⟩
    · exact Or.inl (by simp; omega)
  · simp only [if_neg ht, if_pos hf]
    refine ⟨_, _, _, rfl, ?_, ?_⟩
    · exact Or.inl (by simp; omega)
    · exact Or.inr ⟨by simp; omega, by simp⟩
  · simp only [if_neg ht, if_neg hf]
    refine ⟨_, _, _, rfl, ?_, ?_⟩
    · exact Or.inl (by simp; omega)
    · exact Or.inl (by simp; omega)

/-- There is room for the jumps a branch needs. -/
def Room (b : Block) (offt offf : ℕ) : Prop :=
  (256 ≤ offt → b.longjt ≠ 0) ∧ (256 ≤ offf → b.longjf ≠ 0)

theorem length_branchInsns
    {b : Block} {offt offf : ℕ} (hroom : Room b offt offf) :
    (branchInsns b offt offf).length = 1 + b.longjt + b.longjf := by
  obtain ⟨ht, hf⟩ := hroom
  unfold branchInsns
  split_ifs with h1 h2 h2
  · have hlongt := ht h1
    have hlongf := hf h2
    simp
    omega
  · have hlongt := ht h1
    simp
    omega
  · have hlongf := hf h2
    simp
    omega
  · simp
    omega

section Running

variable {prog : List Insn} {input : Input}

/-- Where a branch displacement leads, the machine arrives. -/
theorem steps_leads
    {pre slots post : List Insn} {insn : Insn}
    (hprog : prog = pre ++ insn :: (slots ++ post)) {off d : ℕ}
    (hoff : off < 2 ^ 31) (hleads : Leads slots off d) (input : Input)
    (regs : Regs) :
    ∃ n, steps prog input n ⟨pre.length + 1 + d, regs⟩ =
      .ok ⟨pre.length + 1 + off, regs⟩ := by
  rcases hleads with rfl | ⟨hle, hslot⟩
  · exact ⟨0, rfl⟩
  · obtain ⟨before, after, hslots, hbefore⟩ :
        ∃ before after, slots = before ++ jaInsn (off - (d + 1)) :: after ∧
          before.length = d := by
      obtain ⟨hlt, hget⟩ := List.getElem?_eq_some_iff.mp hslot
      refine ⟨slots.take d, slots.drop (d + 1), ?_, by simp; omega⟩
      rw [← hget, List.getElem_cons_drop, List.take_append_drop]
    have hsplit : prog = (pre ++ insn :: before) ++
        jaInsn (off - (d + 1)) :: (after ++ post) := by
      rw [hprog, hslots]
      simp
    have hpc : (pre.length : ℤ) + 1 + d =
        ((pre ++ insn :: before).length : ℕ) := by
      rw [List.length_append, List.length_cons, hbefore]
      push_cast
      ring
    have hk : (UInt32.ofNat (off - (d + 1))).toInt32.toInt =
        (off : ℤ) - (d + 1) := by
      have hbits := toInt_eq_toNat (UInt32.ofNat (off - (d + 1))).toInt32
      rw [UInt32.toUInt32_toInt32, UInt32.toNat_ofNat_of_lt' (by
        simp only [UInt32.size]; omega), if_pos (by omega)] at hbits
      rw [hbits]
      omega
    refine ⟨1, ?_⟩
    rw [hpc, steps, step_append hsplit .ja rfl]
    change (steps prog input 0 _ : Exec State) = _
    rw [steps]
    congr 2
    simp only [jaInsn]
    rw [hk, ← hpc]
    ring

end Running

/-! ## Placed blocks -/

def Edge (g : Graph) (p q : ℕ) : Prop :=
  (g p).jt = some q ∨ (g p).jf = some q

/-- What `emitBlock` writes for block `p`. -/
def blockCode (g : Graph) (p : ℕ) : List Insn :=
  let b := g p
  stmtInsns b.stmts ++
    match b.jt, b.jf with
    | some t, some f => branchInsns b (edgeOffset g p t) (edgeOffset g p f)
    | _, _ => ⟨b.code.op.code, 0, 0, b.k⟩ ::
        List.replicate (b.longjt + b.longjf) zeroInsn

/-- Block `p` is in `code`, the end of an array of `n` instructions, and its
successors are behind it. -/
structure Placed (g : Graph) (n : ℕ) (code : List Insn) (p : ℕ) : Prop where
  code : ∃ pre post, code = pre ++ (blockCode g p ++ post) ∧
    (g p).offset = n - ((blockCode g p).length + post.length : ℕ)
  ahead : ∀ q, Edge g p q →
    (g p).offset + (g p).size ≤ (g q).offset ∧ (g q).offset < n
  room : ∀ t f, (g p).jt = some t → (g p).jf = some f →
    Room (g p) (edgeOffset g p t) (edgeOffset g p f)

theorem Placed.edgeOffset_eq
    {g : Graph} {n : ℕ} {code : List Insn} {p q : ℕ}
    (hplaced : Placed g n code p) (hnonneg : 0 ≤ (g p).offset)
    (hn : n < 2 ^ 31) (hedge : Edge g p q) :
    (edgeOffset g p q : ℤ) =
        (g q).offset - ((g p).offset + slength (g p).stmts) - 1 ∧
      edgeOffset g p q < 2 ^ 31 := by
  obtain ⟨hahead, hlt⟩ := hplaced.ahead q hedge
  have hsize : (g p).size = slength (g p).stmts + 1 + (g p).longjt +
    (g p).longjf := rfl
  rw [edgeOffset, branchOffset, Int.emod_eq_of_lt (by omega) (by omega)]
  omega

/-- The array is filled to its start, so an offset is an index. -/
theorem Placed.split
    {g : Graph} {prog : List Insn} {p : ℕ}
    (hplaced : Placed g prog.length prog p) :
    ∃ pre post, prog = pre ++ (blockCode g p ++ post) ∧
      (g p).offset = pre.length := by
  obtain ⟨pre, post, hcode, hoffset⟩ := hplaced.code
  have hlength := congrArg List.length hcode
  rw [List.length_append, List.length_append] at hlength
  exact ⟨pre, post, hcode, by omega⟩

section Simulation

variable {g : Graph} {prog : List Insn} {input : Input} {p : ℕ}

theorem Placed.steps_jump
    (hplaced : Placed g prog.length prog p) (hlen : prog.length < 2 ^ 31)
    {op : JumpOp} {src : Source} (hcode : (g p).code = .jump op src) {t f : ℕ}
    (hjt : (g p).jt = some t) (hjf : (g p).jf = some f) {regs regs' : Regs}
    (hstmts : execStmts input (g p).stmts regs = .ok regs') :
    ∃ n, steps prog input n ⟨(g p).offset, regs⟩ =
      .ok ⟨if op.holds regs'.A (src.operand (g p).k regs') then (g t).offset
        else (g f).offset, regs'⟩ := by
  obtain ⟨pre, post, hprog, hoffset⟩ := hplaced.split
  obtain ⟨ht, htlt⟩ := hplaced.edgeOffset_eq (by omega) hlen (Or.inl hjt)
  obtain ⟨hf, hflt⟩ := hplaced.edgeOffset_eq (by omega) hlen (Or.inr hjf)
  obtain ⟨jt, jf, slots, hbranch, hleadsT, hleadsF⟩ :=
    branchInsns_leads (g p) (edgeOffset g p t) (edgeOffset g p f)
  simp only [blockCode, hjt, hjf, hbranch] at hprog
  have hsplit : prog = (pre ++ stmtInsns (g p).stmts) ++
      ⟨(g p).code.op.code, jt, jf, (g p).k⟩ :: (slots ++ post) := by
    rw [hprog]
    simp
  have hlength : ((pre ++ stmtInsns (g p).stmts).length : ℤ) =
      pre.length + slength (g p).stmts := by
    rw [List.length_append, length_stmtInsns, Nat.cast_add]
  have hfirst := steps_stmts (g p).stmts hsplit hstmts
  have hbranchStep : step prog input
      ⟨(pre ++ stmtInsns (g p).stmts).length, regs'⟩ =
        .ok ⟨(pre ++ stmtInsns (g p).stmts).length + 1 +
          (if op.holds regs'.A (src.operand (g p).k regs') then jt
            else jf).toNat, regs'⟩ := by
    rw [step_append hsplit (.jump op src) (by rw [hcode]; rfl)]
    simp only [execOp]
    split_ifs <;> rfl
  -- the taken edge
  have htaken : ∃ n, steps prog input n
      ⟨(pre ++ stmtInsns (g p).stmts).length + 1 +
        (if op.holds regs'.A (src.operand (g p).k regs') then jt
          else jf).toNat, regs'⟩ =
      .ok ⟨if op.holds regs'.A (src.operand (g p).k regs') then (g t).offset
        else (g f).offset, regs'⟩ := by
    split_ifs
    · obtain ⟨n, hn⟩ := steps_leads hsplit htlt hleadsT input regs'
      exact ⟨n, by rw [hn, hlength]; congr 2; omega⟩
    · obtain ⟨n, hn⟩ := steps_leads hsplit hflt hleadsF input regs'
      exact ⟨n, by rw [hn, hlength]; congr 2; omega⟩
  obtain ⟨n, hn⟩ := htaken
  refine ⟨slength (g p).stmts + (1 + n), ?_⟩
  rw [steps_add, hoffset, hfirst]
  change steps prog input (1 + n) _ = _
  rw [← hlength, Nat.add_comm 1, steps_of_step hbranchStep, hn]

/-- The head of a block's code: its statements and its branch instruction. -/
theorem blockCode_eq (g : Graph) (p : ℕ) :
    ∃ jt jf slots, blockCode g p = stmtInsns (g p).stmts ++
      ⟨(g p).code.op.code, jt, jf, (g p).k⟩ :: slots := by
  unfold blockCode
  cases hjt : (g p).jt with
  | none =>
      simp only [hjt]
      exact ⟨_, _, _, rfl⟩
  | some t =>
      cases hjf : (g p).jf with
      | none =>
          simp only [hjt, hjf]
          exact ⟨_, _, _, rfl⟩
      | some f =>
          obtain ⟨jt, jf, slots, hbranch, _⟩ := branchInsns_leads (g p)
            (edgeOffset g p t) (edgeOffset g p f)
          simp only [hjt, hjf, hbranch]
          exact ⟨_, _, _, rfl⟩

theorem Placed.steps_stop
    (hplaced : Placed g prog.length prog p) {regs : Regs} {stop : Stop}
    (hstep : graphStep g input ⟨some p, regs⟩ = .error stop) :
    ∃ n, steps prog input n ⟨(g p).offset, regs⟩ = .error stop := by
  obtain ⟨pre, post, hprog, hoffset⟩ := hplaced.split
  obtain ⟨jt, jf, slots, hblock⟩ := blockCode_eq g p
  have hsplit : prog = (pre ++ stmtInsns (g p).stmts) ++
      ⟨(g p).code.op.code, jt, jf, (g p).k⟩ :: (slots ++ post) := by
    rw [hprog, hblock]
    simp
  simp only [graphStep, Block.run, bind_eq_error] at hstep
  rw [hoffset]
  rcases hstep with hstmts | ⟨regs', hstmts, hbranch⟩
  · exact steps_stmts_stop (g p).stmts hsplit hstmts
  · cases hcode : (g p).code with
    | jump op src => simp [hcode, pure, Except.pure] at hbranch
    | ret value =>
        simp only [hcode, Except.error.injEq] at hbranch
        have hfirst := steps_stmts (g p).stmts hsplit hstmts
        have hlast : step prog input
            ⟨(pre ++ stmtInsns (g p).stmts).length, regs'⟩ = .error stop := by
          rw [step_append hsplit (.ret value) (by rw [hcode]; rfl)]
          simp only [execOp, hbranch]
        refine ⟨slength (g p).stmts + 1, ?_⟩
        rw [List.length_append, length_stmtInsns, Nat.cast_add] at hlast
        rw [steps_add, hfirst]
        change steps prog input 1 _ = _
        rw [steps, hlast]
        rfl

/-- A graph run which ends is followed by the program, if the blocks it may
visit are placed. -/
theorem steps_of_graphSteps
    {S : Set ℕ} {rank : ℕ → ℕ} (hflow : FlowGraph g S rank)
    (hlen : prog.length < 2 ^ 31) {D : Set ℕ} (hsub : D ⊆ S)
    (hplaced : ∀ q ∈ D, Placed g prog.length prog q)
    (hclosed : ∀ q ∈ D, ∀ r, Edge g q r → r ∈ D) {n : ℕ} (hp : p ∈ D)
    {regs : Regs} {stop : Stop}
    (hrun : graphSteps g input n ⟨some p, regs⟩ = .error stop) :
    ∃ m, steps prog input m ⟨(g p).offset, regs⟩ = .error stop := by
  induction n generalizing p regs with
  | zero => simp [graphSteps] at hrun
  | succ n ih =>
      rw [graphSteps, bind_eq_error] at hrun
      rcases hrun with hnow | ⟨next, hstep, hrest⟩
      · exact (hplaced p hp).steps_stop hnow
      · simp only [graphStep, Block.run, bind_eq_ok] at hstep
        obtain ⟨regs', hstmts, hbranch⟩ := hstep
        cases hcode : (g p).code with
        | ret value => simp [hcode] at hbranch
        | jump op src =>
            obtain ⟨t, _, f, _, hjt, hjf, _, _⟩ :=
              hflow.jump p (hsub hp) op src hcode
            simp only [hcode, pure, Except.pure, Except.ok.injEq] at hbranch
            obtain ⟨m, hm⟩ := (hplaced p hp).steps_jump hlen hcode hjt hjf hstmts
            subst hbranch
            split_ifs at hm hrest
            · rw [hjt] at hrest
              obtain ⟨k, hk⟩ := ih (hclosed p hp t (Or.inl hjt)) hrest
              exact ⟨m + k, by rw [steps_add, hm]; exact hk⟩
            · rw [hjf] at hrest
              obtain ⟨k, hk⟩ := ih (hclosed p hp f (Or.inr hjf)) hrest
              exact ⟨m + k, by rw [steps_add, hm]; exact hk⟩

end Simulation

/-! ## A whole layout -/

/-- The blocks of a list are laid out one behind the other up to the end of an
array of `n` instructions, each before its successors. -/
def Laid (g : Graph) (n : ℕ) : List ℕ → Prop
  | [] => True
  | p :: rest =>
      (g p).offset = n - (((p :: rest).flatMap (blockCode g)).length : ℤ) ∧
      (blockCode g p).length = (g p).size ∧
      (∀ q, Edge g p q → q ∈ rest) ∧
      (∀ t f, (g p).jt = some t → (g p).jf = some f →
        Room (g p) (edgeOffset g p t) (edgeOffset g p f)) ∧
      Laid g n rest

theorem Laid.offset_bounds
    {g : Graph} {n : ℕ} {done : List ℕ} (hlaid : Laid g n done) {p : ℕ}
    (hp : p ∈ done) :
    n - ((done.flatMap (blockCode g)).length : ℤ) ≤ (g p).offset ∧
      (g p).offset + (g p).size ≤ n := by
  induction done with
  | nil => exact absurd hp List.not_mem_nil
  | cons q rest ih =>
      obtain ⟨hoffset, hsize, _, _, hrest⟩ := hlaid
      rw [List.flatMap_cons, List.length_append, Nat.cast_add] at hoffset ⊢
      rcases List.mem_cons.mp hp with rfl | hmem
      · omega
      · have hbounds := ih hrest hmem
        omega

theorem Laid.placed
    {g : Graph} {n : ℕ} {done : List ℕ} (hlaid : Laid g n done) {p : ℕ}
    (hp : p ∈ done) : Placed g n (done.flatMap (blockCode g)) p := by
  induction done with
  | nil => exact absurd hp List.not_mem_nil
  | cons q rest ih =>
      obtain ⟨hoffset, hsize, hedges, hroom, hrest⟩ := hlaid
      rcases List.mem_cons.mp hp with rfl | hmem
      · refine ⟨⟨[], rest.flatMap (blockCode g), by simp, ?_⟩, ?_, hroom⟩
        · rw [hoffset, List.flatMap_cons, List.length_append]
        · intro r hr
          have hbounds := hrest.offset_bounds (hedges r hr)
          have hpos : 0 < (g r).size := by
            rw [Block.size]
            omega
          rw [List.flatMap_cons, List.length_append, Nat.cast_add] at hoffset
          omega
      · obtain ⟨⟨pre, post, hcode, hoff⟩, hahead, hroom'⟩ := ih hrest hmem
        refine ⟨⟨blockCode g q ++ pre, post, ?_, hoff⟩, hahead, hroom'⟩
        rw [List.flatMap_cons, hcode, List.append_assoc]

theorem Laid.closed
    {g : Graph} {n : ℕ} {done : List ℕ} (hlaid : Laid g n done) {p : ℕ}
    (hp : p ∈ done) : ∀ q, Edge g p q → q ∈ done := by
  induction done with
  | nil => exact absurd hp List.not_mem_nil
  | cons q rest ih =>
      obtain ⟨_, _, hedges, _, hrest⟩ := hlaid
      intro r hr
      rcases List.mem_cons.mp hp with rfl | hmem
      · exact List.mem_cons_of_mem _ (hedges r hr)
      · exact List.mem_cons_of_mem _ (ih hrest hmem r hr)

theorem Laid.length_flatMap
    {g : Graph} {n : ℕ} {done : List ℕ} (hlaid : Laid g n done) :
    (done.flatMap (blockCode g)).length =
      (done.map fun p => (g p).size).sum := by
  induction done with
  | nil => rfl
  | cons p rest ih =>
      obtain ⟨_, hsize, _, _, hrest⟩ := hlaid
      rw [List.flatMap_cons, List.length_append, ih hrest, hsize,
        List.map_cons, List.sum_cons]

theorem blockCode_congr
    {g g' : Graph} {p : ℕ} (hp : g' p = g p)
    (hedges : ∀ q, Edge g p q → g' q = g q) : blockCode g' p = blockCode g p := by
  unfold blockCode edgeOffset
  rw [hp]
  cases hjt : (g p).jt with
  | none => simp only [hjt]
  | some t =>
      cases hjf : (g p).jf with
      | none => simp only [hjt, hjf]
      | some f =>
          simp only [hjt, hjf, hedges t (Or.inl hjt), hedges f (Or.inr hjf)]

/-- A layout only depends on the blocks in it. -/
theorem Laid.congr
    {g g' : Graph} {n : ℕ} {done : List ℕ} (hlaid : Laid g n done)
    (hsame : ∀ p ∈ done, g' p = g p) :
    Laid g' n done ∧ done.flatMap (blockCode g') = done.flatMap (blockCode g) := by
  induction done with
  | nil => exact ⟨trivial, rfl⟩
  | cons p rest ih =>
      obtain ⟨hoffset, hsize, hedges, hroom, hrest⟩ := hlaid
      have hp := hsame p List.mem_cons_self
      obtain ⟨hrest', hcode⟩ :=
        ih hrest fun q hq => hsame q (List.mem_cons_of_mem p hq)
      have hedges' : ∀ q, Edge g p q → g' q = g q := fun q hq =>
        hsame q (List.mem_cons_of_mem p (hedges q hq))
      have hblock := blockCode_congr hp hedges'
      have hall : (p :: rest).flatMap (blockCode g') =
          (p :: rest).flatMap (blockCode g) := by
        rw [List.flatMap_cons, List.flatMap_cons, hblock, hcode]
      refine ⟨⟨?_, ?_, ?_, ?_, hrest'⟩, hall⟩
      · rw [hp, hall]
        exact hoffset
      · rw [hblock, hp]
        exact hsize
      · intro q hq
        rw [Edge, hp] at hq
        exact hedges q hq
      · intro t f ht hf
        rw [hp] at ht hf
        have hroomg := hroom t f ht hf
        unfold edgeOffset at hroomg ⊢
        rw [hp, hedges' t (Or.inl ht), hedges' f (Or.inr hf)]
        exact hroomg

/-! ## Marks -/

abbrev Reach (g : Graph) : ℕ → ℕ → Prop := Relation.ReflTransGen (Edge g)

/-- The marked blocks are those which are done, with all their successors, and
those the recursion is in. -/
structure Marks (g : Graph) (marked done gray : List ℕ) : Prop where
  mem_iff : ∀ p, p ∈ marked ↔ p ∈ done ∨ p ∈ gray
  nodup : done.Nodup
  closed : ∀ p ∈ done, ∀ q, Edge g p q → q ∈ done
  disjoint : ∀ p ∈ done, p ∉ gray

/-- A traversal from `p` which has come from `done` to `done'`. -/
structure Extends (g : Graph) (p : ℕ) (done done' : List ℕ) : Prop where
  subset : ∀ q ∈ done, q ∈ done'
  mem : p ∈ done'
  reach : ∀ q ∈ done', q ∈ done ∨ Reach g p q

section Marks

variable {g : Graph} {marked done gray : List ℕ} {p : ℕ}

theorem Marks.start (hmarks : Marks g marked done gray) (hp : p ∉ marked) :
    Marks g (p :: marked) done (p :: gray) := by
  refine ⟨?_, hmarks.nodup, hmarks.closed, ?_⟩
  · intro q
    rw [List.mem_cons, List.mem_cons, hmarks.mem_iff]
    tauto
  · intro q hq hgray
    rcases List.mem_cons.mp hgray with rfl | hmem
    · exact hp ((hmarks.mem_iff q).mpr (Or.inl hq))
    · exact hmarks.disjoint q hq hmem

theorem Marks.finish
    (hmarks : Marks g marked done (p :: gray)) (hp : p ∉ gray)
    (hedges : ∀ q, Edge g p q → q ∈ done) : Marks g marked (p :: done) gray := by
  have hfresh : p ∉ done := fun hmem =>
    hmarks.disjoint p hmem List.mem_cons_self
  refine ⟨?_, List.nodup_cons.mpr ⟨hfresh, hmarks.nodup⟩, ?_, ?_⟩
  · intro q
    rw [hmarks.mem_iff, List.mem_cons, List.mem_cons]
    tauto
  · intro q hq r hr
    rcases List.mem_cons.mp hq with rfl | hmem
    · exact List.mem_cons_of_mem _ (hedges r hr)
    · exact List.mem_cons_of_mem _ (hmarks.closed q hmem r hr)
  · intro q hq hgray
    rcases List.mem_cons.mp hq with rfl | hmem
    · exact hp hgray
    · exact hmarks.disjoint q hmem (List.mem_cons_of_mem _ hgray)

theorem Marks.mem_done
    (hmarks : Marks g marked done gray) {rank : ℕ → ℕ}
    (hgray : ∀ q ∈ gray, rank p < rank q) (hp : p ∈ marked) : p ∈ done := by
  rcases (hmarks.mem_iff p).mp hp with hdone | hmem
  · exact hdone
  · exact absurd (hgray p hmem) (lt_irrefl _)

theorem Extends.rfl_of_mem (hp : p ∈ done) : Extends g p done done :=
  ⟨fun _ hq => hq, hp, fun _ hq => Or.inl hq⟩

/-- Both successors have been visited, and the block is added. -/
theorem Extends.of_successors
    {t f : ℕ} {done₁ done₂ : List ℕ} (ht : Edge g p t) (hf : Edge g p f)
    (hfirst : Extends g t done done₁) (hsecond : Extends g f done₁ done₂) :
    Extends g p done (p :: done₂) := by
  refine ⟨fun q hq => List.mem_cons_of_mem p
    (hsecond.subset q (hfirst.subset q hq)), List.mem_cons_self, ?_⟩
  intro q hq
  rcases List.mem_cons.mp hq with rfl | hmem
  · exact Or.inr .refl
  · rcases hsecond.reach q hmem with hone | hreach
    · rcases hfirst.reach q hone with hold | hreach
      · exact Or.inl hold
      · exact Or.inr (.head ht hreach)
    · exact Or.inr (.head hf hreach)

theorem Extends.of_ret (done : List ℕ) : Extends g p done (p :: done) := by
  refine ⟨fun q hq => List.mem_cons_of_mem p hq, List.mem_cons_self, ?_⟩
  intro q hq
  rcases List.mem_cons.mp hq with rfl | hmem
  · exact Or.inr .refl
  · exact Or.inl hmem

/-- Two complete traversals from one root visit the same blocks. -/
theorem perm_of_complete
    {done' : List ℕ} {marked' : List ℕ} (hmarks : Marks g marked done [])
    (hmarks' : Marks g marked' done' []) (hext : Extends g p [] done)
    (hext' : Extends g p [] done') : done.Perm done' := by
  have hmem : ∀ (m d : List ℕ), Marks g m d [] → Extends g p [] d →
      ∀ q, q ∈ d ↔ Reach g p q := by
    intro m d hm he q
    constructor
    · intro hq
      exact (he.reach q hq).resolve_left List.not_mem_nil
    · intro hreach
      induction hreach with
      | refl => exact he.mem
      | tail _ hedge ih => exact hm.closed _ ih _ hedge
  rw [List.perm_ext_iff_of_nodup hmarks.nodup hmarks'.nodup]
  intro q
  rw [hmem _ _ hmarks hext, hmem _ _ hmarks' hext']

end Marks

/-! ## What the two recursions do -/

section Recursion

variable {g : Graph} {S : Set ℕ} {rank : ℕ → ℕ}

/-- `count_stmts` visits what can be reached and counts each block once. -/
theorem countStmts_spec
    (hflow : FlowGraph g S rank) {fuel p : ℕ} {marked done gray : List ℕ}
    (hp : p ∈ S) (hfuel : rank p < fuel) (hgray : ∀ q ∈ gray, rank p < rank q)
    (hmarks : Marks g marked done gray) :
    ∃ n marked' done', countStmts g fuel (some p) marked = some (n, marked') ∧
      Marks g marked' done' gray ∧ Extends g p done done' ∧
      (done'.map fun q => (g q).size).sum =
        (done.map fun q => (g q).size).sum + n := by
  induction fuel generalizing p marked done gray with
  | zero => omega
  | succ fuel ih =>
      by_cases hmem : p ∈ marked
      · refine ⟨0, marked, done, ?_, hmarks,
          .rfl_of_mem (hmarks.mem_done hgray hmem), rfl⟩
        rw [countStmts, if_pos hmem]
      · have hstart := hmarks.start hmem
        have hfresh : p ∉ gray := fun hpg => absurd (hgray p hpg) (lt_irrefl _)
        cases hcode : (g p).code with
        | ret value =>
            obtain ⟨hjt, hjf⟩ := hflow.ret p hp value hcode
            refine ⟨(g p).size + (0 + 0), p :: marked, p :: done, ?_,
              hstart.finish hfresh ?_, .of_ret done, ?_⟩
            · rw [countStmts, if_neg hmem, hjt, hjf]
              cases fuel <;> rfl
            · rintro q (hq | hq)
              · simp [hjt] at hq
              · simp [hjf] at hq
            · rw [List.map_cons, List.sum_cons]
              omega
        | jump op src =>
            obtain ⟨t, ht, f, hf, hjt, hjf, hrt, hrf⟩ :=
              hflow.jump p hp op src hcode
            have hgray' : ∀ r, rank r < rank p →
                ∀ q ∈ p :: gray, rank r < rank q := by
              intro r hr q hq
              rcases List.mem_cons.mp hq with rfl | hqg
              · exact hr
              · exact hr.trans (hgray q hqg)
            obtain ⟨nt, marked₁, done₁, hcount₁, hmarks₁, hext₁, hsum₁⟩ :=
              ih ht (by omega) (hgray' t hrt) hstart
            obtain ⟨nf, marked₂, done₂, hcount₂, hmarks₂, hext₂, hsum₂⟩ :=
              ih hf (by omega) (hgray' f hrf) hmarks₁
            have hedges : ∀ q, Edge g p q → q ∈ done₂ := by
              rintro q (hq | hq)
              · rw [hjt, Option.some.injEq] at hq
                exact hext₂.subset q (hq ▸ hext₁.mem)
              · rw [hjf, Option.some.injEq] at hq
                exact hq ▸ hext₂.mem
            refine ⟨(g p).size + (nt + nf), marked₂, p :: done₂, ?_,
              hmarks₂.finish hfresh hedges,
              .of_successors (Or.inl hjt) (Or.inr hjf) hext₁ hext₂, ?_⟩
            · rw [countStmts, if_neg hmem, hjt, hjf, hcount₁]
              simp only [Option.bind_eq_bind, Option.bind_some, hcount₂]
              rfl
            · rw [List.map_cons, List.sum_cons]
              omega

end Recursion

end Bpf
end StockFeed
