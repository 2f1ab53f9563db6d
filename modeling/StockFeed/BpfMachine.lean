import Mathlib.Tactic

/-!
# The packet filter machine

`bpf_filter` of `bpf/net/bpf_filter.c`, as it is built for user programs.  It
interprets an array of instructions over an accumulator `A`, an index register
`X` and sixteen words of scratch memory, and ends by returning how much of the
packet to keep.  An instruction with an unknown code calls `abort`.

The other ways to end are undefined behaviour of the source: an instruction
fetched outside the array, a read outside the packet, a scratch word which is
not there, a division by zero, and a shift by 32 or more.  The scratch memory
is not initialised, so it starts with arbitrary words.
-/

namespace StockFeed
namespace Bpf

/-! ## Instruction codes -/

inductive Size
  | W | H | B
  deriving DecidableEq, Repr

inductive Source
  | K | X
  deriving DecidableEq, Repr

inductive AluOp
  | add | sub | mul | div | or | and | lsh | rsh
  deriving DecidableEq, Repr

inductive JumpOp
  | jgt | jge | jeq | jset
  deriving DecidableEq, Repr

inductive ReturnValue
  | K | A
  deriving DecidableEq, Repr

/-- Instructions after which the next one is executed. -/
inductive PlainOp
  | ldAbs (size : Size)
  | ldInd (size : Size)
  | ldLen
  | ldxLen
  | ldxMsh
  | ldImm
  | ldxImm
  | ldMem
  | ldxMem
  | st
  | stx
  | alu (op : AluOp) (src : Source)
  | neg
  | tax
  | txa
  deriving DecidableEq, Repr

inductive Op
  | plain (op : PlainOp)
  | ja
  | jump (op : JumpOp) (src : Source)
  | ret (value : ReturnValue)
  deriving DecidableEq, Repr

def Size.code : Size → UInt16
  | .W => 0x00
  | .H => 0x08
  | .B => 0x10

def Source.code : Source → UInt16
  | .K => 0x00
  | .X => 0x08

def AluOp.code : AluOp → UInt16
  | .add => 0x00
  | .sub => 0x10
  | .mul => 0x20
  | .div => 0x30
  | .or => 0x40
  | .and => 0x50
  | .lsh => 0x60
  | .rsh => 0x70

def JumpOp.code : JumpOp → UInt16
  | .jeq => 0x10
  | .jgt => 0x20
  | .jge => 0x30
  | .jset => 0x40

def ReturnValue.code : ReturnValue → UInt16
  | .K => 0x00
  | .A => 0x10

/-- The case labels of the `switch`: class, then size or operation, then mode
or source. -/
def PlainOp.code : PlainOp → UInt16
  | .ldAbs size => 0x00 ||| size.code ||| 0x20
  | .ldInd size => 0x00 ||| size.code ||| 0x40
  | .ldLen => 0x00 ||| 0x00 ||| 0x80
  | .ldxLen => 0x01 ||| 0x00 ||| 0x80
  | .ldxMsh => 0x01 ||| 0xa0 ||| 0x10
  | .ldImm => 0x00 ||| 0x00
  | .ldxImm => 0x01 ||| 0x00
  | .ldMem => 0x00 ||| 0x60
  | .ldxMem => 0x01 ||| 0x60
  | .st => 0x02
  | .stx => 0x03
  | .alu op src => 0x04 ||| op.code ||| src.code
  | .neg => 0x04 ||| 0x80
  | .tax => 0x07 ||| 0x00
  | .txa => 0x07 ||| 0x80

def Op.code : Op → UInt16
  | .plain op => op.code
  | .ja => 0x05 ||| 0x00
  | .jump op src => 0x05 ||| op.code ||| src.code
  | .ret value => 0x06 ||| value.code

def allPlainOps : List PlainOp :=
  [Size.W, .H, .B].map .ldAbs ++ [Size.W, .H, .B].map .ldInd ++
    [.ldLen, .ldxLen, .ldxMsh, .ldImm, .ldxImm, .ldMem, .ldxMem, .st, .stx] ++
    [AluOp.add, .sub, .mul, .div, .or, .and, .lsh, .rsh].flatMap
      (fun op => [.alu op .X, .alu op .K]) ++
    [.neg, .tax, .txa]

def allOps : List Op :=
  allPlainOps.map .plain ++ [.ja] ++
    [JumpOp.jgt, .jge, .jeq, .jset].flatMap
      (fun op => [.jump op .K, .jump op .X]) ++
    [.ret .K, .ret .A]

/-- The case of the `switch` a code leads to; `none` is the default. -/
def Op.ofCode (code : UInt16) : Option Op :=
  allOps.find? fun op => op.code = code

theorem mem_allOps (op : Op) : op ∈ allOps := by
  rcases op with (size | size | _ | _ | _ | _ | _ | _ | _ | _ | _ |
    ⟨op, src⟩ | _ | _ | _) | _ | ⟨op, src⟩ | value
  all_goals try rcases size
  all_goals try rcases op
  all_goals try rcases src
  all_goals try rcases value
  all_goals decide

theorem code_injOn_allOps : ∀ op ∈ allOps, Op.ofCode op.code = some op := by
  decide +kernel

/-- The case labels differ. -/
@[simp] theorem Op.ofCode_code (op : Op) : Op.ofCode op.code = some op :=
  code_injOn_allOps op (mem_allOps op)

theorem Op.code_of_ofCode {code : UInt16} {op : Op}
    (hop : Op.ofCode code = some op) : op.code = code := by
  simpa using List.find?_some hop

/-! ## Machine state -/

/-- `struct bpf_insn`. -/
structure Insn where
  code : UInt16
  jt : UInt8
  jf : UInt8
  k : UInt32
  deriving DecidableEq, Repr

def memWords : ℕ := 16

structure Regs where
  A : UInt32
  X : UInt32
  mem : Fin memWords → UInt32

/-- What `bpf_filter` is given: the captured bytes, `buflen` of them, and the
length of the packet on the wire.  The callers have counted the bytes in an
`int`. -/
structure Input where
  p : List UInt8
  wirelen : UInt32
  length_lt : p.length < 2 ^ 31

/-- The ways to end. -/
inductive Stop
  | ret (value : UInt32)
  | abort
  | outOfCode
  | outOfPacket
  | outOfMem
  | divZero
  | badShift
  deriving DecidableEq, Repr

abbrev Exec := Except Stop

/-! ## One instruction -/

/-- `p[i]`. -/
def readByte (input : Input) (i : ℤ) : Exec UInt32 :=
  if 0 ≤ i then
    match input.p[i.toNat]? with
    | some byte => .ok byte.toUInt32
    | none => .error .outOfPacket
  else .error .outOfPacket

/-- `k + sizeof(int32) > buflen`, `k + sizeof(short) > buflen` and
`k >= buflen`.  In the first two the `int` is converted to `size_t`, so the
sum wraps for the last negative values. -/
def tooShort (input : Input) (k : Int32) : Size → Bool
  | .W => input.p.length < ((k.toInt + 4) % 2 ^ 64).toNat
  | .H => input.p.length < ((k.toInt + 2) % 2 ^ 64).toNat
  | .B => input.p.length ≤ k.toUInt32.toNat

/-- `EXTRACT_LONG`, `EXTRACT_SHORT` and a single byte. -/
def extract (input : Input) (k : ℤ) : Size → Exec UInt32
  | .W => do
      let b0 ← readByte input k
      let b1 ← readByte input (k + 1)
      let b2 ← readByte input (k + 2)
      let b3 ← readByte input (k + 3)
      return b0 <<< 24 ||| b1 <<< 16 ||| b2 <<< 8 ||| b3
  | .H => do
      let b0 ← readByte input k
      let b1 ← readByte input (k + 1)
      return b0 <<< 8 ||| b1
  | .B => readByte input k

/-- A load of packet data; where there is none, the packet is rejected. -/
def load (input : Input) (size : Size) (k : Int32) : Exec UInt32 :=
  if tooShort input k size then .error (.ret 0)
  else extract input k.toInt size

def memIndex (k : UInt32) : Exec (Fin memWords) :=
  if h : k.toNat < memWords then .ok ⟨k.toNat, h⟩ else .error .outOfMem

def AluOp.apply (op : AluOp) (A operand : UInt32) : Exec UInt32 :=
  match op with
  | .add => .ok (A + operand)
  | .sub => .ok (A - operand)
  | .mul => .ok (A * operand)
  | .div => if operand = 0 then .error .divZero else .ok (A / operand)
  | .or => .ok (A ||| operand)
  | .and => .ok (A &&& operand)
  | .lsh => if operand < 32 then .ok (A <<< operand) else .error .badShift
  | .rsh => if operand < 32 then .ok (A >>> operand) else .error .badShift

/-- The operand of an instruction with a source field. -/
def Source.operand (src : Source) (k : UInt32) (regs : Regs) : UInt32 :=
  match src with
  | .K => k
  | .X => regs.X

def PlainOp.exec (op : PlainOp) (k : UInt32) (input : Input) (regs : Regs) :
    Exec Regs :=
  match op with
  | .ldAbs size => do
      let A ← load input size k.toInt32
      return { regs with A := A }
  | .ldInd size => do
      let A ← load input size (regs.X + k).toInt32
      return { regs with A := A }
  | .ldLen => .ok { regs with A := input.wirelen }
  | .ldxLen => .ok { regs with X := input.wirelen }
  | .ldxMsh =>
      if tooShort input k.toInt32 .B then .error (.ret 0)
      else do
        let byte ← readByte input k.toNat
        return { regs with X := (byte &&& 0xf) <<< 2 }
  | .ldImm => .ok { regs with A := k }
  | .ldxImm => .ok { regs with X := k }
  | .ldMem => do
      let i ← memIndex k
      return { regs with A := regs.mem i }
  | .ldxMem => do
      let i ← memIndex k
      return { regs with X := regs.mem i }
  | .st => do
      let i ← memIndex k
      return { regs with mem := Function.update regs.mem i regs.A }
  | .stx => do
      let i ← memIndex k
      return { regs with mem := Function.update regs.mem i regs.X }
  | .alu .div .X =>
      if regs.X = 0 then .error (.ret 0)
      else do
        let A ← AluOp.div.apply regs.A regs.X
        return { regs with A := A }
  | .alu op src => do
      let A ← op.apply regs.A (src.operand k regs)
      return { regs with A := A }
  | .neg => .ok { regs with A := -regs.A }
  | .tax => .ok { regs with X := regs.A }
  | .txa => .ok { regs with A := regs.X }

def JumpOp.holds (op : JumpOp) (A operand : UInt32) : Bool :=
  match op with
  | .jgt => operand < A
  | .jge => operand ≤ A
  | .jeq => A = operand
  | .jset => A &&& operand ≠ 0

def ReturnValue.get (value : ReturnValue) (k : UInt32) (regs : Regs) : UInt32 :=
  match value with
  | .K => k
  | .A => regs.A

/-! ## The interpreter -/

structure State where
  pc : ℤ
  regs : Regs

/-- The instruction at `pc`. -/
def fetch (prog : List Insn) (pc : ℤ) : Exec Insn :=
  if 0 ≤ pc then
    match prog[pc.toNat]? with
    | some insn => .ok insn
    | none => .error .outOfCode
  else .error .outOfCode

def execOp (op : Op) (insn : Insn) (input : Input) (s : State) : Exec State :=
  match op with
  | .plain op => do
      let regs ← op.exec insn.k input s.regs
      return ⟨s.pc + 1, regs⟩
  | .ja => .ok { s with pc := s.pc + 1 + insn.k.toInt32.toInt }
  | .jump op src =>
      if op.holds s.regs.A (src.operand insn.k s.regs) then
        .ok { s with pc := s.pc + 1 + insn.jt.toNat }
      else .ok { s with pc := s.pc + 1 + insn.jf.toNat }
  | .ret value => .error (.ret (value.get insn.k s.regs))

/-- One turn of the loop. -/
def step (prog : List Insn) (input : Input) (s : State) : Exec State := do
  let insn ← fetch prog s.pc
  match Op.ofCode insn.code with
  | some op => execOp op insn input s
  | none => .error .abort

/-- `n` turns of the loop. -/
def steps (prog : List Insn) (input : Input) : ℕ → State → Exec State
  | 0, s => .ok s
  | n + 1, s => step prog input s >>= steps prog input n

def State.initial (mem : Fin memWords → UInt32) : State :=
  ⟨0, ⟨0, 0, mem⟩⟩

/-- `bpf_filter` with at most `fuel` turns of its loop; `none` is a loop that
has not ended.  Without a program, the whole packet is kept. -/
def bpfFilter (prog : Option (List Insn)) (input : Input)
    (mem : Fin memWords → UInt32) (fuel : ℕ) : Option Stop :=
  match prog with
  | none => some (.ret 0xffffffff)
  | some prog =>
      match steps prog input fuel (State.initial mem) with
      | .ok _ => none
      | .error stop => some stop

/-! ## Rules for runs -/

theorem bind_eq_ok {α β : Type} {x : Exec α} {f : α → Exec β} {b : β} :
    x >>= f = .ok b ↔ ∃ a, x = .ok a ∧ f a = .ok b := by
  cases x with
  | error stop => simp [bind, Except.bind]
  | ok a => simp [bind, Except.bind]

theorem bind_eq_error {α β : Type} {x : Exec α} {f : α → Exec β} {stop : Stop} :
    x >>= f = .error stop ↔
      x = .error stop ∨ ∃ a, x = .ok a ∧ f a = .error stop := by
  cases x with
  | error stop => simp [bind, Except.bind]
  | ok a => simp [bind, Except.bind]

section Runs

variable {prog : List Insn} {input : Input}

/-- What a turn which does not end the run has done. -/
theorem step_cases {s s' : State} (hstep : step prog input s = .ok s') :
    ∃ insn, fetch prog s.pc = .ok insn ∧
      ((∃ op regs, Op.ofCode insn.code = some (.plain op) ∧
          op.exec insn.k input s.regs = .ok regs ∧ s' = ⟨s.pc + 1, regs⟩) ∨
        (Op.ofCode insn.code = some .ja ∧
          s' = { s with pc := s.pc + 1 + insn.k.toInt32.toInt }) ∨
        (∃ op src, Op.ofCode insn.code = some (.jump op src) ∧
          s' = { s with pc := s.pc + 1 +
            (if op.holds s.regs.A (src.operand insn.k s.regs) then insn.jt
              else insn.jf).toNat })) := by
  rw [step, bind_eq_ok] at hstep
  obtain ⟨insn, hfetch, hexec⟩ := hstep
  refine ⟨insn, hfetch, ?_⟩
  cases hop : Op.ofCode insn.code with
  | none => simp [hop] at hexec
  | some op =>
      rw [hop] at hexec
      cases op with
      | plain op =>
          simp only [execOp, bind_eq_ok, pure, Except.pure, Except.ok.injEq]
            at hexec
          obtain ⟨regs, hregs, rfl⟩ := hexec
          exact Or.inl ⟨op, regs, rfl, hregs, rfl⟩
      | ja =>
          simp only [execOp, Except.ok.injEq] at hexec
          exact Or.inr (Or.inl ⟨rfl, hexec.symm⟩)
      | jump op src =>
          refine Or.inr (Or.inr ⟨op, src, rfl, ?_⟩)
          simp only [execOp] at hexec
          split_ifs at hexec ⊢ <;>
            (rw [Except.ok.injEq] at hexec; exact hexec.symm)
      | ret value => simp [execOp] at hexec

theorem steps_add (m n : ℕ) (s : State) :
    steps prog input (m + n) s =
      steps prog input m s >>= steps prog input n := by
  induction m generalizing s with
  | zero => rw [Nat.zero_add]; rfl
  | succ m ih =>
      rw [Nat.succ_add, steps, steps]
      cases step prog input s with
      | error stop => rfl
      | ok s' => exact ih s'

theorem steps_of_step {s s' : State} (hstep : step prog input s = .ok s') (n : ℕ) :
    steps prog input (n + 1) s = steps prog input n s' := by
  rw [steps, hstep]
  rfl

variable {Inv : State → Prop}

/-- What one turn keeps, every number of turns keeps. -/
theorem steps_invariant
    (hkept : ∀ s s', Inv s → step prog input s = .ok s' → Inv s')
    {n : ℕ} {s s' : State} (hinv : Inv s)
    (hrun : steps prog input n s = .ok s') : Inv s' := by
  induction n generalizing s with
  | zero =>
      rw [steps, Except.ok.injEq] at hrun
      exact hrun ▸ hinv
  | succ n ih =>
      rw [steps, bind_eq_ok] at hrun
      obtain ⟨next, hstep, hrest⟩ := hrun
      exact ih (hkept s next hinv hstep) hrest

/-- A run ends in a turn, taken from a state which satisfies the invariant. -/
theorem steps_stop
    (hkept : ∀ s s', Inv s → step prog input s = .ok s' → Inv s')
    {n : ℕ} {s : State} {stop : Stop} (hinv : Inv s)
    (hrun : steps prog input n s = .error stop) :
    ∃ s', Inv s' ∧ step prog input s' = .error stop := by
  induction n generalizing s with
  | zero => exact absurd hrun (by simp [steps])
  | succ n ih =>
      rw [steps, bind_eq_error] at hrun
      rcases hrun with hnow | ⟨next, hstep, hrest⟩
      · exact ⟨s, hinv, hnow⟩
      · exact ih (hkept s next hinv hstep) hrest

/-- A run which has ended does not change with more turns. -/
theorem steps_mono
    {m n : ℕ} (hle : m ≤ n) {s : State} {stop : Stop}
    (hrun : steps prog input m s = .error stop) :
    steps prog input n s = .error stop := by
  obtain ⟨rest, rfl⟩ := Nat.exists_eq_add_of_le hle
  rw [steps_add, hrun]
  rfl

end Runs

end Bpf
end StockFeed
