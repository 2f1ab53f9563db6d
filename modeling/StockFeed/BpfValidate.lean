import StockFeed.BpfMachine

/-!
# What bpf_validate guarantees

`install_bpf_program` accepts a program if `bpf_validate` does.  The check
looks at each instruction on its own, by class, mode and operation, and at the
class of the last one.  An accepted program never leaves its code, its scratch
memory or the numbers it may divide by, on any packet and for any number of
turns, although its jumps may go backwards.  If they do not, it ends within as
many turns as it has instructions.

The check does not look at the whole code, at shift counts or at packet
offsets: unknown codes, shifts by 32 or more and reads before the packet can
still happen.
-/

namespace StockFeed
namespace Bpf

/-! ## The check -/

/-- `BPF_CLASS`, `BPF_MODE`, `BPF_OP` and `BPF_SRC`. -/
def classOf (code : UInt16) : UInt16 := code &&& 0x07

def modeOf (code : UInt16) : UInt16 := code &&& 0xe0

def opOf (code : UInt16) : UInt16 := code &&& 0xf0

def srcOf (code : UInt16) : UInt16 := code &&& 0x08

/-- The body of the loop, for instruction `i` of `len`.  Sums with `from` are
taken in `u_int`. -/
def validInsn (len i : ℕ) (insn : Insn) : Bool :=
  let «from» := i + 1
  match classOf insn.code with
  | 0x00 | 0x01 =>
      match modeOf insn.code with
      | 0x00 => true
      | 0x20 | 0x40 | 0xa0 => true
      | 0x60 => insn.k.toNat < memWords
      | 0x80 => true
      | _ => false
  | 0x02 | 0x03 => insn.k.toNat < memWords
  | 0x04 =>
      match opOf insn.code with
      | 0x00 | 0x10 | 0x20 | 0x40 | 0x50 | 0x60 | 0x70 | 0x80 => true
      | 0x30 => !(srcOf insn.code = 0x00 ∧ insn.k = 0)
      | _ => false
  | 0x05 =>
      match opOf insn.code with
      | 0x00 => («from» + insn.k.toNat) % 2 ^ 32 < len
      | 0x10 | 0x20 | 0x30 | 0x40 =>
          («from» + insn.jt.toNat) % 2 ^ 32 < len ∧
            («from» + insn.jf.toNat) % 2 ^ 32 < len
      | _ => false
  | 0x06 => true
  | 0x07 => true
  | _ => false

def bpfValidate (prog : List Insn) : Bool :=
  prog.zipIdx.all (fun (insn, i) => validInsn prog.length i insn) &&
    match prog.getLast? with
    | some insn => classOf insn.code = 0x06
    | none => false

/-! ## What it asks of each instruction -/

/-- The check of an instruction with a known code. -/
def Op.valid (op : Op) (len i : ℕ) (insn : Insn) : Bool :=
  match op with
  | .plain .ldMem | .plain .ldxMem | .plain .st | .plain .stx =>
      insn.k.toNat < memWords
  | .plain (.alu .div .K) => !(True ∧ insn.k = 0)
  | .plain _ => true
  | .ja => (i + 1 + insn.k.toNat) % 2 ^ 32 < len
  | .jump _ _ => (i + 1 + insn.jt.toNat) % 2 ^ 32 < len ∧
      (i + 1 + insn.jf.toNat) % 2 ^ 32 < len
  | .ret _ => true

/-- The fields of a code which the check looks at; the others are zero here. -/
def Op.fields : Op → UInt16 × UInt16 × UInt16 × UInt16
  | .plain (.ldAbs _) => (0, 0x20, 0, 0)
  | .plain (.ldInd _) => (0, 0x40, 0, 0)
  | .plain .ldLen => (0, 0x80, 0, 0)
  | .plain .ldxLen => (1, 0x80, 0, 0)
  | .plain .ldxMsh => (1, 0xa0, 0, 0)
  | .plain .ldImm => (0, 0, 0, 0)
  | .plain .ldxImm => (1, 0, 0, 0)
  | .plain .ldMem => (0, 0x60, 0, 0)
  | .plain .ldxMem => (1, 0x60, 0, 0)
  | .plain .st => (2, 0, 0, 0)
  | .plain .stx => (3, 0, 0, 0)
  | .plain (.alu op src) => (4, 0, op.code, src.code)
  | .plain .neg => (4, 0, 0x80, 0)
  | .plain .tax | .plain .txa => (7, 0, 0, 0)
  | .ja => (5, 0, 0, 0)
  | .jump op _ => (5, 0, op.code, 0)
  | .ret _ => (6, 0, 0, 0)

theorem fields_of_code (op : Op) :
    classOf op.code = op.fields.1 ∧
      (op.fields.1 = 0 ∨ op.fields.1 = 1 → modeOf op.code = op.fields.2.1) ∧
      (op.fields.1 = 4 ∨ op.fields.1 = 5 → opOf op.code = op.fields.2.2.1) ∧
      (op.fields.1 = 4 → opOf op.code = 0x30 → srcOf op.code = op.fields.2.2.2) := by
  have hall : ∀ op ∈ allOps, classOf op.code = op.fields.1 ∧
      (op.fields.1 = 0 ∨ op.fields.1 = 1 → modeOf op.code = op.fields.2.1) ∧
      (op.fields.1 = 4 ∨ op.fields.1 = 5 → opOf op.code = op.fields.2.2.1) ∧
      (op.fields.1 = 4 → opOf op.code = 0x30 →
        srcOf op.code = op.fields.2.2.2) := by
    decide +kernel
  exact hall op (mem_allOps op)

theorem validInsn_eq
    {op : Op} {insn : Insn} (hop : Op.ofCode insn.code = some op) (len i : ℕ) :
    validInsn len i insn = op.valid len i insn := by
  have hcode := Op.code_of_ofCode hop
  obtain ⟨hclass, hmode, hoperation, hsrc⟩ := fields_of_code op
  rw [hcode] at hclass hmode hoperation hsrc
  unfold validInsn
  rcases op with (size | size | _ | _ | _ | _ | _ | _ | _ | _ | _ |
    ⟨op, src⟩ | _ | _ | _) | _ | ⟨op, src⟩ | value
  case plain.alu =>
    cases op <;> cases src <;>
      simp_all [Op.fields, Op.valid, AluOp.code, Source.code]
  case jump =>
    cases op <;> simp_all [Op.fields, Op.valid, JumpOp.code]
  all_goals simp_all [Op.fields, Op.valid]

structure Validated (prog : List Insn) : Prop where
  insns : ∀ i insn, prog[i]? = some insn → validInsn prog.length i insn = true
  last : ∀ insn, prog[prog.length - 1]? = some insn → classOf insn.code = 0x06
  ne_nil : prog ≠ []

theorem validated_of_bpfValidate {prog : List Insn}
    (hvalid : bpfValidate prog = true) : Validated prog := by
  rw [bpfValidate, Bool.and_eq_true, List.all_eq_true] at hvalid
  obtain ⟨hall, hlast⟩ := hvalid
  refine ⟨?_, ?_, ?_⟩
  · intro i insn hinsn
    exact hall (insn, i) (List.mem_zipIdx_iff_getElem?.mpr hinsn)
  · intro insn hinsn
    rw [List.getLast?_eq_getElem?, hinsn] at hlast
    simpa using hlast
  · rintro rfl
    simp at hlast

/-! ## Packet loads -/

/-- An `int` and the `u_int` with the same bits. -/
theorem toInt_eq_toNat (k : Int32) :
    k.toInt = if k.toUInt32.toNat < 2 ^ 31 then (k.toUInt32.toNat : ℤ)
      else k.toUInt32.toNat - 2 ^ 32 := by
  have hcond := BitVec.toInt_eq_toNat_cond k.toBitVec
  rw [Int32.toInt_toBitVec, Int32.toNat_toBitVec] at hcond
  rw [hcond]
  split_ifs <;> omega

theorem readByte_of_lt
    {input : Input} {i : ℤ} (hnonneg : 0 ≤ i) (hlt : i < input.p.length) :
    ∃ byte, readByte input i = .ok byte := by
  have hget : i.toNat < input.p.length := by omega
  exact ⟨_, by rw [readByte, if_pos hnonneg, List.getElem?_eq_getElem hget]⟩

def Size.bytes : Size → ℕ
  | .W => 4
  | .H => 2
  | .B => 1

theorem extract_of_le
    {input : Input} {k : ℤ} {size : Size} (hnonneg : 0 ≤ k)
    (hle : k + size.bytes ≤ input.p.length) :
    ∃ value, extract input k size = .ok value := by
  have hread : ∀ j : ℤ, 0 ≤ j → j < size.bytes →
      ∃ byte, readByte input (k + j) = .ok byte := fun j hj hlt =>
    readByte_of_lt (by omega) (by omega)
  cases size with
  | W =>
      obtain ⟨b0, h0⟩ := hread 0 (by norm_num) (by decide)
      obtain ⟨b1, h1⟩ := hread 1 (by norm_num) (by decide)
      obtain ⟨b2, h2⟩ := hread 2 (by norm_num) (by decide)
      obtain ⟨b3, h3⟩ := hread 3 (by norm_num) (by decide)
      rw [add_zero] at h0
      exact ⟨_, by rw [extract, h0, h1, h2, h3]; rfl⟩
  | H =>
      obtain ⟨b0, h0⟩ := hread 0 (by norm_num) (by decide)
      obtain ⟨b1, h1⟩ := hread 1 (by norm_num) (by decide)
      rw [add_zero] at h0
      exact ⟨_, by rw [extract, h0, h1]; rfl⟩
  | B =>
      obtain ⟨b0, h0⟩ := hread 0 (by norm_num) (by decide)
      rw [add_zero] at h0
      exact ⟨_, h0⟩

/-- The length check lets a load through only if it is within the packet, or
starts up to four bytes before it. -/
theorem load_cases (input : Input) (size : Size) (k : Int32) :
    load input size k = .error (.ret 0) ∨
      (∃ value, load input size k = .ok value) ∨
      (size ≠ .B ∧ -4 ≤ k.toInt ∧ k.toInt < 0) := by
  have hlength := input.length_lt
  have hrange := k.toInt_lt
  have hrange' := k.le_toInt
  by_cases hshort : tooShort input k size = true
  · exact Or.inl (by rw [load, if_pos hshort])
  · right
    rw [load, if_neg hshort]
    cases size with
    | W =>
        simp only [tooShort, decide_eq_true_eq, not_lt] at hshort
        by_cases hneg : k.toInt < 0
        · exact Or.inr ⟨by decide, by omega, hneg⟩
        · exact Or.inl (extract_of_le (by omega)
            (by simp only [Size.bytes]; omega))
    | H =>
        simp only [tooShort, decide_eq_true_eq, not_lt] at hshort
        by_cases hneg : k.toInt < 0
        · exact Or.inr ⟨by decide, by omega, hneg⟩
        · exact Or.inl (extract_of_le (by omega)
            (by simp only [Size.bytes]; omega))
    | B =>
        simp only [tooShort, decide_eq_true_eq, not_le] at hshort
        have hbits := toInt_eq_toNat k
        rw [if_pos (by omega)] at hbits
        exact Or.inl (extract_of_le (by omega)
          (by simp only [Size.bytes]; omega))

/-! ## One turn of an accepted program -/

/-- The faults an accepted instruction can still end in. -/
inductive Faulty (insn : Insn) : Stop → Prop
  | unknown (hcode : Op.ofCode insn.code = none) : Faulty insn .abort
  | shiftK {op : AluOp} (hshift : op = .lsh ∨ op = .rsh)
      (hcode : Op.ofCode insn.code = some (.plain (.alu op .K)))
      (hcount : 32 ≤ insn.k.toNat) : Faulty insn .badShift
  | shiftX {op : AluOp} (hshift : op = .lsh ∨ op = .rsh)
      (hcode : Op.ofCode insn.code = some (.plain (.alu op .X))) :
      Faulty insn .badShift
  | absolute {size : Size} (hsize : size ≠ .B)
      (hcode : Op.ofCode insn.code = some (.plain (.ldAbs size)))
      (hbefore : 2 ^ 32 - 4 ≤ insn.k.toNat) : Faulty insn .outOfPacket
  | indirect {size : Size} (hsize : size ≠ .B)
      (hcode : Op.ofCode insn.code = some (.plain (.ldInd size))) :
      Faulty insn .outOfPacket

theorem load_stop
    {input : Input} {size : Size} {k : Int32} {stop : Stop}
    (hload : load input size k = .error stop) :
    stop = .ret 0 ∨ stop = .outOfPacket ∧ size ≠ .B ∧
      2 ^ 32 - 4 ≤ k.toUInt32.toNat := by
  have hstop : stop = .ret 0 ∨ stop = .outOfPacket := by
    have hread : ∀ i, readByte input i = .error stop → stop = .outOfPacket := by
      intro i hi
      unfold readByte at hi
      split at hi
      · split at hi <;> simp_all
      · simp_all
    unfold load at hload
    split at hload
    · simp_all
    · right
      cases size <;>
        simp only [extract, bind_eq_error, pure, Except.pure, reduceCtorEq,
          and_false, exists_false, or_false] at hload <;> grind
  rcases load_cases input size k with hret | ⟨value, hok⟩ | ⟨hsize, hlow, hneg⟩
  · rw [hload, Except.error.injEq] at hret
    exact Or.inl hret
  · rw [hload] at hok
    exact absurd hok (by simp)
  · rcases hstop with hret | hout
    · exact Or.inl hret
    · have hbits := toInt_eq_toNat k
      refine Or.inr ⟨hout, hsize, ?_⟩
      split_ifs at hbits <;> omega

theorem memIndex_of_lt {k : UInt32} (hk : k.toNat < memWords) :
    ∃ i, memIndex k = .ok i :=
  ⟨⟨k.toNat, hk⟩, by rw [memIndex, dif_pos hk]⟩

theorem AluOp.apply_stop
    {op : AluOp} {A operand : UInt32} {stop : Stop}
    (happly : op.apply A operand = .error stop) :
    stop = .divZero ∧ op = .div ∧ operand = 0 ∨
      stop = .badShift ∧ (op = .lsh ∨ op = .rsh) ∧ 32 ≤ operand.toNat := by
  cases op with
  | div =>
      simp only [AluOp.apply] at happly
      split at happly
      · simp_all
      · simp at happly
  | lsh | rsh =>
      simp only [AluOp.apply] at happly
      split at happly
      · simp at happly
      · rename_i hcount
        rw [UInt32.lt_iff_toNat_lt, not_lt] at hcount
        simp_all
  | add | sub | mul | or | and => simp [AluOp.apply] at happly

theorem alu_exec_stop
    {op : AluOp} {src : Source} {insn : Insn}
    (hop : Op.ofCode insn.code = some (.plain (.alu op src)))
    {len i : ℕ} (hvalid : (Op.plain (.alu op src)).valid len i insn = true)
    {input : Input} {regs : Regs} {stop : Stop}
    (hexec : (PlainOp.alu op src).exec insn.k input regs = .error stop) :
    stop = .ret 0 ∨ Faulty insn stop := by
  by_cases hdiv : op = .div ∧ src = .X
  · -- the one division which is checked at run time
    obtain ⟨rfl, rfl⟩ := hdiv
    simp only [PlainOp.exec] at hexec
    split at hexec
    · simp_all
    · rename_i hzero
      simp [AluOp.apply, hzero, bind, Except.bind, pure, Except.pure] at hexec
  · have happly : op.apply regs.A (src.operand insn.k regs) = .error stop := by
      cases op <;> cases src <;> simp_all [PlainOp.exec, bind_eq_error, pure,
        Except.pure]
    rcases AluOp.apply_stop happly with ⟨_, rfl, hzero⟩ | ⟨rfl, hshift, hcount⟩
    · cases src with
      | K => simp_all [Op.valid, Source.operand]
      | X => simp at hdiv
    · right
      cases src with
      | K => exact .shiftK hshift hop hcount
      | X => exact .shiftX hshift hop

theorem plain_exec_stop
    {op : PlainOp} {insn : Insn} (hop : Op.ofCode insn.code = some (.plain op))
    {len i : ℕ} (hvalid : (Op.plain op).valid len i insn = true)
    {input : Input} {regs : Regs} {stop : Stop}
    (hexec : op.exec insn.k input regs = .error stop) :
    stop = .ret 0 ∨ Faulty insn stop := by
  cases op with
  | ldAbs size =>
      simp only [PlainOp.exec, bind_eq_error, pure, Except.pure, reduceCtorEq,
        and_false, exists_false, or_false] at hexec
      rcases load_stop hexec with hret | ⟨rfl, hsize, hbefore⟩
      · exact Or.inl hret
      · exact Or.inr (.absolute hsize hop (by simpa using hbefore))
  | ldInd size =>
      simp only [PlainOp.exec, bind_eq_error, pure, Except.pure, reduceCtorEq,
        and_false, exists_false, or_false] at hexec
      rcases load_stop hexec with hret | ⟨rfl, hsize, _⟩
      · exact Or.inl hret
      · exact Or.inr (.indirect hsize hop)
  | ldxMsh =>
      simp only [PlainOp.exec] at hexec
      split at hexec
      · simp_all
      · rename_i hshort
        simp only [tooShort, UInt32.toUInt32_toInt32, decide_eq_true_eq,
          not_le] at hshort
        obtain ⟨byte, hbyte⟩ : ∃ byte, readByte input insn.k.toNat = .ok byte :=
          readByte_of_lt (by omega) (by omega)
        simp [hbyte, bind, Except.bind, pure, Except.pure] at hexec
  | alu op src => exact alu_exec_stop hop hvalid hexec
  | ldMem =>
      obtain ⟨j, hj⟩ := memIndex_of_lt (of_decide_eq_true hvalid)
      simp [PlainOp.exec, hj, bind, Except.bind, pure, Except.pure] at hexec
  | ldxMem =>
      obtain ⟨j, hj⟩ := memIndex_of_lt (of_decide_eq_true hvalid)
      simp [PlainOp.exec, hj, bind, Except.bind, pure, Except.pure] at hexec
  | st =>
      obtain ⟨j, hj⟩ := memIndex_of_lt (of_decide_eq_true hvalid)
      simp [PlainOp.exec, hj, bind, Except.bind, pure, Except.pure] at hexec
  | stx =>
      obtain ⟨j, hj⟩ := memIndex_of_lt (of_decide_eq_true hvalid)
      simp [PlainOp.exec, hj, bind, Except.bind, pure, Except.pure] at hexec
  | ldLen | ldxLen | ldImm | ldxImm | neg | tax | txa =>
      simp [PlainOp.exec] at hexec

def InCode (prog : List Insn) (s : State) : Prop :=
  0 ≤ s.pc ∧ s.pc < prog.length

theorem fetch_of_inCode {prog : List Insn} {s : State} (hs : InCode prog s) :
    ∃ insn, prog[s.pc.toNat]? = some insn ∧ fetch prog s.pc = .ok insn := by
  have hlt : s.pc.toNat < prog.length := by
    obtain ⟨hnonneg, hlt⟩ := hs
    omega
  refine ⟨prog[s.pc.toNat], List.getElem?_eq_getElem hlt, ?_⟩
  rw [fetch, if_pos hs.1, List.getElem?_eq_getElem hlt]

section Accepted

variable {prog : List Insn} {input : Input}

/-- A plain instruction is not the last one. -/
theorem Validated.next_inCode
    (hvalid : Validated prog) {i : ℕ} {insn : Insn} (hinsn : prog[i]? = some insn)
    {op : PlainOp} (hop : Op.ofCode insn.code = some (.plain op)) :
    i + 1 < prog.length := by
  have hlt : i < prog.length := (List.getElem?_eq_some_iff.mp hinsn).1
  by_contra hge
  have hclass := hvalid.last insn (by rw [show prog.length - 1 = i by omega, hinsn])
  rw [← Op.code_of_ofCode hop, (fields_of_code _).1] at hclass
  cases op <;> simp [Op.fields] at hclass

/-- A target below `2 ^ 31` in `u_int` arithmetic is the target in `int`
arithmetic. -/
theorem ja_target
    {i len : ℕ} {k : UInt32} (hi : i < len) (hlen : len < 2 ^ 31)
    (htarget : (i + 1 + k.toNat) % 2 ^ 32 < len) :
    0 ≤ (i : ℤ) + 1 + k.toInt32.toInt ∧ (i : ℤ) + 1 + k.toInt32.toInt < len := by
  have hbits := toInt_eq_toNat k.toInt32
  rw [UInt32.toUInt32_toInt32] at hbits
  have hk := k.toNat_lt
  split_ifs at hbits <;> omega

theorem Validated.step_inCode
    (hvalid : Validated prog) (hlen : prog.length < 2 ^ 31) {s s' : State}
    (hs : InCode prog s) (hstep : step prog input s = .ok s') :
    InCode prog s' := by
  obtain ⟨insn, hinsn, hfetch⟩ := fetch_of_inCode hs
  have hlt : s.pc.toNat < prog.length := (List.getElem?_eq_some_iff.mp hinsn).1
  have hpc : (s.pc.toNat : ℤ) = s.pc := Int.toNat_of_nonneg hs.1
  have hchecked := hvalid.insns _ _ hinsn
  obtain ⟨insn', hsame, hcases⟩ := step_cases hstep
  rw [hfetch, Except.ok.injEq] at hsame
  subst hsame
  rcases hcases with ⟨op, regs, hop, _, rfl⟩ | ⟨hop, rfl⟩ | ⟨op, src, hop, rfl⟩
  · have hnext := hvalid.next_inCode hinsn hop
    exact ⟨by simp only; omega, by simp only; omega⟩
  · rw [validInsn_eq hop] at hchecked
    have htarget := ja_target hlt hlen (of_decide_eq_true hchecked)
    rw [hpc] at htarget
    exact htarget
  · rw [validInsn_eq hop] at hchecked
    have htargets := of_decide_eq_true hchecked
    have hjt := insn.jt.toNat_lt
    have hjf := insn.jf.toNat_lt
    simp only [InCode]
    split_ifs <;> omega

theorem Validated.step_stop
    (hvalid : Validated prog) {s : State} (hs : InCode prog s) {stop : Stop}
    (hstep : step prog input s = .error stop) :
    (∃ value, stop = .ret value) ∨ ∃ insn ∈ prog, Faulty insn stop := by
  obtain ⟨insn, hinsn, hfetch⟩ := fetch_of_inCode hs
  have hmem : insn ∈ prog := List.mem_of_getElem? hinsn
  have hchecked := hvalid.insns _ _ hinsn
  rw [step, hfetch] at hstep
  simp only [bind, Except.bind] at hstep
  cases hop : Op.ofCode insn.code with
  | none =>
      rw [hop, Except.error.injEq] at hstep
      subst hstep
      exact Or.inr ⟨insn, hmem, .unknown hop⟩
  | some op =>
      rw [hop] at hstep
      rw [validInsn_eq hop] at hchecked
      cases op with
      | plain op =>
          simp only [execOp, bind_eq_error, pure, Except.pure, reduceCtorEq, and_false,
            exists_false, or_false] at hstep
          rcases plain_exec_stop hop hchecked hstep with hret | hfault
          · exact Or.inl ⟨0, hret⟩
          · exact Or.inr ⟨insn, hmem, hfault⟩
      | ja => simp [execOp] at hstep
      | jump op src =>
          simp only [execOp] at hstep
          split_ifs at hstep
      | ret value =>
          simp only [execOp, Except.error.injEq] at hstep
          exact Or.inl ⟨_, hstep.symm⟩

theorem State.initial_inCode
    (hvalid : Validated prog) (mem : Fin memWords → UInt32) :
    InCode prog (State.initial mem) := by
  have hpos := List.length_pos_iff.mpr hvalid.ne_nil
  exact ⟨le_rfl, Int.natCast_pos.mpr hpos⟩

/-- However long an accepted program runs, and on whatever packet, it only ends
by returning a value or at an instruction which is known to be faulty: it is
never outside its code or its scratch memory and never divides by zero. -/
theorem validated_run_contained
    (prog : List Insn) (hlen : prog.length < 2 ^ 31)
    (hvalid : bpfValidate prog = true) (input : Input)
    (mem : Fin memWords → UInt32) (fuel : ℕ) (stop : Stop)
    (hstop : bpfFilter (some prog) input mem fuel = some stop) :
    (∃ value, stop = .ret value) ∨ ∃ insn ∈ prog, Faulty insn stop := by
  have haccepted := validated_of_bpfValidate hvalid
  have hkept : ∀ s s', InCode prog s → step prog input s = .ok s' →
      InCode prog s' := fun s s' => haccepted.step_inCode hlen
  rw [bpfFilter] at hstop
  split at hstop
  · simp at hstop
  · rename_i last hrun
    rw [Option.some.injEq] at hstop
    subst hstop
    obtain ⟨s, hs, hlast⟩ :=
      steps_stop hkept (State.initial_inCode haccepted mem) hrun
    exact haccepted.step_stop hs hlast

/-- Keep the packets whose byte 23 is 17. -/
def udpProgram : List Insn :=
  [⟨0x30, 0, 0, 23⟩, ⟨0x15, 0, 1, 17⟩, ⟨0x06, 0, 0, 65535⟩, ⟨0x06, 0, 0, 0⟩]

def shortInput : Input :=
  ⟨List.replicate 23 0 ++ [17], 24, by decide⟩

theorem validated_run_contained_udp :
    udpProgram.length < 2 ^ 31 ∧ bpfValidate udpProgram = true ∧
      bpfFilter (some udpProgram) shortInput (fun _ => 0) 4 =
        some (.ret 65535) ∧
      ((∃ value, Stop.ret 65535 = .ret value) ∨
        ∃ insn ∈ udpProgram, Faulty insn (.ret 65535)) := by
  have hlen : udpProgram.length < 2 ^ 31 := by decide
  have hvalid : bpfValidate udpProgram = true := by decide
  have hstop : bpfFilter (some udpProgram) shortInput (fun _ => 0) 4 =
      some (.ret 65535) := by decide
  exact ⟨hlen, hvalid, hstop,
    validated_run_contained _ hlen hvalid _ _ _ _ hstop⟩

/-- The code `0x08` is accepted and unknown. -/
example : bpfValidate [⟨0x08, 0, 0, 0⟩, ⟨0x06, 0, 0, 0⟩] = true ∧
    bpfFilter (some [⟨0x08, 0, 0, 0⟩, ⟨0x06, 0, 0, 0⟩]) shortInput
      (fun _ => 0) 1 = some .abort := by
  decide

/-! ## Programs without backward jumps -/

/-- The program has no backward jump: no `k` of an unconditional jump is
negative as an `int`. -/
def ForwardJumps (prog : List Insn) : Prop :=
  ∀ insn ∈ prog, Op.ofCode insn.code = some .ja → insn.k.toNat < 2 ^ 31

theorem step_pc_lt
    (hforward : ForwardJumps prog) {s s' : State}
    (hstep : step prog input s = .ok s') : s.pc < s'.pc := by
  obtain ⟨insn, hfetch, hcases⟩ := step_cases hstep
  rcases hcases with ⟨op, regs, _, _, rfl⟩ | ⟨hop, rfl⟩ | ⟨op, src, _, rfl⟩
  · simp only
    omega
  · have hmem : insn ∈ prog := by
      unfold fetch at hfetch
      split at hfetch
      · split at hfetch
        · rename_i hget
          rw [Except.ok.injEq] at hfetch
          exact hfetch ▸ List.mem_of_getElem? hget
        · simp at hfetch
      · simp at hfetch
    have hbits := toInt_eq_toNat insn.k.toInt32
    rw [UInt32.toUInt32_toInt32, if_pos (hforward insn hmem hop)] at hbits
    simp only
    omega
  · simp only
    omega

theorem le_pc_of_steps
    (hforward : ForwardJumps prog) {n : ℕ} {s s' : State}
    (hrun : steps prog input n s = .ok s') : s.pc + n ≤ s'.pc := by
  induction n generalizing s with
  | zero =>
      rw [steps, Except.ok.injEq] at hrun
      rw [hrun]
      simp
  | succ n ih =>
      rw [steps, bind_eq_ok] at hrun
      obtain ⟨next, hstep, hrest⟩ := hrun
      have hone := step_pc_lt hforward hstep
      have hmore := ih hrest
      push_cast
      omega

/-- The program counter grows, and stays inside the code. -/
theorem steps_length_stop
    (hlen : prog.length < 2 ^ 31) (hvalid : bpfValidate prog = true)
    (hforward : ForwardJumps prog) (input : Input)
    (mem : Fin memWords → UInt32) :
    ∃ stop, steps prog input prog.length (State.initial mem) = .error stop := by
  have haccepted := validated_of_bpfValidate hvalid
  have hkept : ∀ s s', InCode prog s → step prog input s = .ok s' →
      InCode prog s' := fun s s' => haccepted.step_inCode hlen
  cases hrun : steps prog input prog.length (State.initial mem) with
  | error stop => exact ⟨stop, rfl⟩
  | ok s =>
      have hinside := steps_invariant hkept
        (State.initial_inCode haccepted mem) hrun
      have hmoved := le_pc_of_steps hforward hrun
      simp only [State.initial] at hmoved
      exact absurd hinside.2 (by omega)

end Accepted

/-- An accepted program without backward jumps ends within as many turns as it
has instructions. -/
theorem validated_forward_run_ends
    (prog : List Insn) (hlen : prog.length < 2 ^ 31)
    (hvalid : bpfValidate prog = true) (hforward : ForwardJumps prog)
    (input : Input) (mem : Fin memWords → UInt32) {fuel : ℕ}
    (hfuel : prog.length ≤ fuel) :
    ∃ stop, bpfFilter (some prog) input mem fuel = some stop := by
  obtain ⟨stop, hstop⟩ :=
    steps_length_stop hlen hvalid hforward input mem
  refine ⟨stop, ?_⟩
  rw [bpfFilter, steps_mono hfuel hstop]

/-- The same filter, with a jump over the rejecting return. -/
def udpJumpProgram : List Insn :=
  [⟨0x30, 0, 0, 23⟩, ⟨0x15, 0, 1, 17⟩, ⟨0x05, 0, 0, 1⟩, ⟨0x06, 0, 0, 0⟩,
    ⟨0x06, 0, 0, 65535⟩]

theorem validated_forward_run_ends_jump :
    bpfValidate udpJumpProgram = true ∧ ForwardJumps udpJumpProgram ∧
      ∃ stop, bpfFilter (some udpJumpProgram) shortInput (fun _ => 0) 5 =
        some stop := by
  have hvalid : bpfValidate udpJumpProgram = true := by decide
  have hforward : ForwardJumps udpJumpProgram := by
    unfold ForwardJumps
    decide
  exact ⟨hvalid, hforward, validated_forward_run_ends _ (by decide) hvalid
    hforward _ _ (by decide)⟩

/-- A jump to itself is accepted. -/
example : bpfValidate [⟨0x05, 0, 0, 0xffffffff⟩, ⟨0x06, 0, 0, 0⟩] = true := by
  decide

end Bpf
end StockFeed
