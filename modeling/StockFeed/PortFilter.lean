import StockFeed.FilterGen

/-!
# The filter of the server

`port 4567 and udp`, as the primitives of `gencode.c` build it on Ethernet.
The pieces for the transport protocols are tried one after another, `or` by
`or`, first for IPv6, then for IPv4; `udp` is tested last.
-/

namespace StockFeed
namespace Bpf

/-! ## Offsets on Ethernet -/

/-- `enum e_offrel`. -/
inductive OffRel
  | packet | link | macpl | net | netNosnap | tranIpv4 | tranIpv6
  deriving DecidableEq, Repr

/-- `init_linktype` for `DLT_EN10MB`. -/
def offLl : UInt32 := 0

def offLinktype : UInt32 := 12

def offMacpl : UInt32 := 14

def offNl : UInt32 := 0

def offNlNosnap : UInt32 := 3

def genLoadLlrel (offset : UInt32) (size : Size) : List Stmt :=
  [⟨some (.ldAbs size), offset + offLl⟩]

def genLoadMacplrel (offset : UInt32) (size : Size) : List Stmt :=
  [⟨some (.ldAbs size), offMacpl + offset⟩]

def genLoadxIphdrlen : List Stmt :=
  [⟨some .ldxMsh, offMacpl + offNl⟩]

def genLoadA (offrel : OffRel) (offset : UInt32) (size : Size) : List Stmt :=
  match offrel with
  | .packet => [⟨some (.ldAbs size), offset⟩]
  | .link => genLoadLlrel offset size
  | .macpl => genLoadMacplrel offset size
  | .net => genLoadMacplrel (offNl + offset) size
  | .netNosnap => genLoadMacplrel (offNlNosnap + offset) size
  | .tranIpv4 =>
      genLoadxIphdrlen ++ [⟨some (.ldInd size), offMacpl + offNl + offset⟩]
  | .tranIpv6 => genLoadMacplrel (offNl + 40 + offset) size

/-! ## Comparisons -/

def genNcmp (offrel : OffRel) (offset : UInt32) (size : Size) (mask : UInt32)
    (jtype : JumpOp) (reverse : Bool) (v : UInt32) : Gen ℕ := do
  let s := genLoadA offrel offset size
  let s := if mask = 0xffffffff then s else s ++ [⟨some (.alu .and .K), mask⟩]
  let b ← genTest ⟨s, jtype, .K, v⟩
  if reverse ∧ (jtype = .jgt ∨ jtype = .jge) then genNot b
  return b

def genCmp (offrel : OffRel) (offset : UInt32) (size : Size) (v : UInt32) : Gen ℕ :=
  genNcmp offrel offset size 0xffffffff .jeq false v

/-- `gen_linktype` for an Ethernet type which has no case of its own in
`gen_ether_linktype`. -/
def genLinktype (proto : UInt32) : Gen ℕ :=
  genCmp .link offLinktype .H proto

def genIpfrag : Gen ℕ := do
  let b ← genTest ⟨genLoadA .net 6 .H, .jset, .K, 0x1fff⟩
  genNot b
  return b

/-! ## Ports -/

/-- `Q_SRC`, `Q_DST`, `Q_OR`, `Q_AND` and `Q_DEFAULT`. -/
inductive Dir
  | default | src | dst | or | and
  deriving DecidableEq, Repr

/-- The transport protocol of a port; `undef` is `PROTO_UNDEF`. -/
inductive PortProto
  | tcp | udp | sctp | undef
  deriving DecidableEq, Repr

def ipprotoTcp : UInt32 := 6

def ipprotoUdp : UInt32 := 17

def ipprotoFragment : UInt32 := 44

def ipprotoSctp : UInt32 := 132

def ethertypeIp : UInt32 := 0x0800

def ethertypeIpv6 : UInt32 := 0x86dd

def genPortatom (off v : UInt32) : Gen ℕ :=
  genCmp .tranIpv4 off .H v

def genPortatom6 (off v : UInt32) : Gen ℕ :=
  genCmp .tranIpv6 off .H v

/-- The `switch` over `dir` of `gen_portop` and `gen_portop6`. -/
def genPortDir (atom : UInt32 → UInt32 → Gen ℕ) (port : UInt32) (dir : Dir) :
    Gen ℕ :=
  match dir with
  | .src => atom 0 port
  | .dst => atom 2 port
  | .or | .default => do
      let tmp ← atom 0 port
      let b1 ← atom 2 port
      genOr tmp b1
      return b1
  | .and => do
      let tmp ← atom 0 port
      let b1 ← atom 2 port
      genAnd tmp b1
      return b1

def genPortop (port proto : UInt32) (dir : Dir) : Gen ℕ := do
  let tmp ← genCmp .net 9 .B proto
  let b0 ← genIpfrag
  genAnd tmp b0
  let b1 ← genPortDir genPortatom port dir
  genAnd b0 b1
  return b1

def genPortop6 (port proto : UInt32) (dir : Dir) : Gen ℕ := do
  let b0 ← genCmp .net 6 .B proto
  let b1 ← genPortDir genPortatom6 port dir
  genAnd b0 b1
  return b1

/-- The `switch` over `ip_proto` of `gen_port` and `gen_port6`. -/
def genPortProto (portop : UInt32 → Gen ℕ) (ip_proto : PortProto) : Gen ℕ :=
  match ip_proto with
  | .udp => portop ipprotoUdp
  | .tcp => portop ipprotoTcp
  | .sctp => portop ipprotoSctp
  | .undef => do
      let tmp ← portop ipprotoTcp
      let b1 ← portop ipprotoUdp
      genOr tmp b1
      let tmp ← portop ipprotoSctp
      genOr tmp b1
      return b1

def genPort (port : UInt32) (ip_proto : PortProto) (dir : Dir) : Gen ℕ := do
  let b0 ← genLinktype ethertypeIp
  let b1 ← genPortProto (fun proto => genPortop port proto dir) ip_proto
  genAnd b0 b1
  return b1

def genPort6 (port : UInt32) (ip_proto : PortProto) (dir : Dir) : Gen ℕ := do
  let b0 ← genLinktype ethertypeIpv6
  let b1 ← genPortProto (fun proto => genPortop6 port proto dir) ip_proto
  genAnd b0 b1
  return b1

/-- `gen_ncode` for a number with `port` before it. -/
def genNcodePort (v : UInt32) (proto : PortProto) (dir : Dir) : Gen ℕ :=
  if 65535 < v then fun _ => none
  else do
    let b ← genPort v proto dir
    let b6 ← genPort6 v proto dir
    genOr b6 b
    return b

/-! ## Protocols -/

/-- `gen_proto` for `Q_IP`. -/
def genProtoIp (v : UInt32) : Gen ℕ := do
  let b0 ← genLinktype ethertypeIp
  let b1 ← genCmp .net 9 .B v
  genAnd b0 b1
  return b1

/-- `gen_proto` for `Q_IPV6`. -/
def genProtoIpv6 (v : UInt32) : Gen ℕ := do
  let b0 ← genLinktype ethertypeIpv6
  let b2 ← genCmp .net 6 .B ipprotoFragment
  let b1 ← genCmp .net 40 .B v
  genAnd b2 b1
  let b2 ← genCmp .net 6 .B v
  genOr b2 b1
  genAnd b0 b1
  return b1

/-- `gen_proto_abbrev` for `Q_SCTP`, `Q_TCP` and `Q_UDP`. -/
def genProtoAbbrev (v : UInt32) : Gen ℕ := do
  let b1 ← genProtoIp v
  let b0 ← genProtoIpv6 v
  genOr b0 b1
  return b1

/-- The actions for `port v and udp`. -/
def parsePortAndUdp (v : UInt32) : Gen ℕ := do
  let b0 ← genNcodePort v .undef .default
  let b1 ← genProtoAbbrev ipprotoUdp
  genAnd b0 b1
  return b1

/-- `filter_exp` of `pcapServer`. -/
def filterExp : Gen ℕ := parsePortAndUdp 4567

/-! ## What they build -/

def cmpExpr (offrel : OffRel) (offset : UInt32) (size : Size) (v : UInt32) : Expr :=
  .test ⟨genLoadA offrel offset size, .jeq, .K, v⟩

def linktypeExpr (proto : UInt32) : Expr :=
  cmpExpr .link offLinktype .H proto

def ipfragExpr : Expr :=
  .not (.test ⟨genLoadA .net 6 .H, .jset, .K, 0x1fff⟩)

def portDirExpr (atom : UInt32 → Expr) : Dir → Expr
  | .src => atom 0
  | .dst => atom 2
  | .or | .default => .or (atom 0) (atom 2)
  | .and => .and (atom 0) (atom 2)

def portopExpr (port proto : UInt32) (dir : Dir) : Expr :=
  .and (.and (cmpExpr .net 9 .B proto) ipfragExpr)
    (portDirExpr (fun off => cmpExpr .tranIpv4 off .H port) dir)

def portop6Expr (port proto : UInt32) (dir : Dir) : Expr :=
  .and (cmpExpr .net 6 .B proto)
    (portDirExpr (fun off => cmpExpr .tranIpv6 off .H port) dir)

def portProtoExpr (portop : UInt32 → Expr) : PortProto → Expr
  | .udp => portop ipprotoUdp
  | .tcp => portop ipprotoTcp
  | .sctp => portop ipprotoSctp
  | .undef => .or (portop ipprotoSctp)
      (.or (portop ipprotoTcp) (portop ipprotoUdp))

def ncodePortExpr (v : UInt32) (proto : PortProto) (dir : Dir) : Expr :=
  .or (.and (linktypeExpr ethertypeIpv6)
      (portProtoExpr (fun p => portop6Expr v p dir) proto))
    (.and (linktypeExpr ethertypeIp)
      (portProtoExpr (fun p => portopExpr v p dir) proto))

def protoAbbrevExpr (v : UInt32) : Expr :=
  .or
    (.and (linktypeExpr ethertypeIpv6)
      (.or (cmpExpr .net 6 .B v)
        (.and (cmpExpr .net 6 .B ipprotoFragment) (cmpExpr .net 40 .B v))))
    (.and (linktypeExpr ethertypeIp) (cmpExpr .net 9 .B v))

section Builds

variable (offrel : OffRel) (offset v port proto : UInt32) (size : Size) (dir : Dir)
  (ip_proto : PortProto)

theorem genCmp_builds :
    Builds (genCmp offrel offset size v) (cmpExpr offrel offset size v) :=
  genTest_builds ⟨genLoadA offrel offset size, .jeq, .K, v⟩

theorem genIpfrag_builds : Builds genIpfrag ipfragExpr :=
  (genTest_builds _).not

theorem genPortDir_builds
    {atom : UInt32 → UInt32 → Gen ℕ} {expr : UInt32 → Expr}
    (hatom : ∀ off, Builds (atom off port) (expr off)) :
    Builds (genPortDir atom port dir) (portDirExpr expr dir) := by
  cases dir with
  | src => exact hatom 0
  | dst => exact hatom 2
  | or | default => exact (hatom 0).or (hatom 2)
  | and => exact (hatom 0).and (hatom 2)

theorem genPortop_builds :
    Builds (genPortop port proto dir) (portopExpr port proto dir) := by
  have hnested := ((genCmp_builds .net 9 proto .B).and genIpfrag_builds).and
    (genPortDir_builds port dir fun off => genCmp_builds .tranIpv4 off port .H)
  simp only [bind_assoc, pure_bind] at hnested
  exact hnested

theorem genPortop6_builds :
    Builds (genPortop6 port proto dir) (portop6Expr port proto dir) :=
  (genCmp_builds .net 6 proto .B).and
    (genPortDir_builds port dir fun off => genCmp_builds .tranIpv6 off port .H)

theorem genPortProto_builds
    {portop : UInt32 → Gen ℕ} {expr : UInt32 → Expr}
    (hportop : ∀ proto, Builds (portop proto) (expr proto)) :
    Builds (genPortProto portop ip_proto) (portProtoExpr expr ip_proto) := by
  cases ip_proto with
  | udp | tcp | sctp => exact hportop _
  | undef =>
      have hnested := ((hportop ipprotoTcp).or (hportop ipprotoUdp)).or_swapped
        (hportop ipprotoSctp)
      simp only [bind_assoc, pure_bind] at hnested
      exact hnested

theorem genNcodePort_builds (hv : v ≤ 65535) :
    Builds (genNcodePort v ip_proto dir) (ncodePortExpr v ip_proto dir) := by
  rw [genNcodePort, if_neg (UInt32.not_lt.mpr hv)]
  have hport := (genCmp_builds .link offLinktype ethertypeIp .H).and
    (genPortProto_builds ip_proto fun p => genPortop_builds v p dir)
  have hport6 := (genCmp_builds .link offLinktype ethertypeIpv6 .H).and
    (genPortProto_builds ip_proto fun p => genPortop6_builds v p dir)
  exact hport.or_swapped hport6

theorem genProtoAbbrev_builds : Builds (genProtoAbbrev v) (protoAbbrevExpr v) := by
  have hinner := ((genCmp_builds .net 6 ipprotoFragment .B).and
    (genCmp_builds .net 40 v .B)).or_swapped (genCmp_builds .net 6 v .B)
  have hipv6 := (genCmp_builds .link offLinktype ethertypeIpv6 .H).and hinner
  have hip := (genCmp_builds .link offLinktype ethertypeIp .H).and
    (genCmp_builds .net 9 v .B)
  have hnested := hip.or_swapped hipv6
  simp only [bind_assoc, pure_bind] at hnested
  simp only [genProtoAbbrev, genProtoIp, genProtoIpv6, genLinktype, bind_assoc,
    pure_bind]
  exact hnested

theorem parsePortAndUdp_builds (hv : v ≤ 65535) :
    Builds (parsePortAndUdp v)
      (.and (ncodePortExpr v .undef .default) (protoAbbrevExpr ipprotoUdp)) :=
  (genNcodePort_builds v .default .undef hv).and (genProtoAbbrev_builds ipprotoUdp)

end Builds

/-! ## Reads of a packet -/

def byteAt (p : List UInt8) (i : ℕ) : Option UInt32 :=
  p[i]?.map UInt8.toUInt32

def halfAt (p : List UInt8) (i : ℕ) : Option UInt32 := do
  let b0 ← p[i]?
  let b1 ← p[i + 1]?
  return b0.toUInt32 <<< 8 ||| b1.toUInt32

/-- A read behind the end rejects the packet. -/
def orReject {α : Type} (read : Option α) : Exec α :=
  match read with
  | some value => .ok value
  | none => .error (.ret 0)

theorem orReject_eq_ok {α : Type} {read : Option α} {value : α} :
    orReject read = .ok value ↔ read = some value := by
  cases read <;> simp [orReject]

theorem orReject_eq_error {α : Type} {read : Option α} {stop : Stop} :
    orReject read = .error stop ↔ read = none ∧ stop = .ret 0 := by
  cases read <;> simp [orReject, eq_comm]

section Loads

variable {input : Input} {k : UInt32}

theorem toInt_of_small (hk : k.toNat < 2 ^ 31) : k.toInt32.toInt = k.toNat := by
  have hbits := toInt_eq_toNat k.toInt32
  rwa [UInt32.toUInt32_toInt32, if_pos hk] at hbits

theorem readByte_nat (i : ℕ) :
    readByte input i =
      match input.p[i]? with
      | some byte => .ok byte.toUInt32
      | none => .error .outOfPacket :=
  (if_pos (Int.natCast_nonneg i)).trans rfl

theorem load_byte (hk : k.toNat < 2 ^ 31) :
    load input .B k.toInt32 = orReject (byteAt input.p k.toNat) := by
  rw [load, tooShort, UInt32.toUInt32_toInt32, byteAt]
  by_cases hshort : input.p.length ≤ k.toNat
  · rw [if_pos (decide_eq_true hshort), List.getElem?_eq_none hshort]
    rfl
  · rw [if_neg (by simpa using hshort), extract, toInt_of_small hk, readByte_nat,
      List.getElem?_eq_getElem (by omega)]
    rfl

theorem load_half (hk : k.toNat < 2 ^ 31 - 1) :
    load input .H k.toInt32 = orReject (halfAt input.p k.toNat) := by
  have hint := toInt_of_small (show k.toNat < 2 ^ 31 by omega)
  have hsum : ((k.toInt32.toInt + 2) % 2 ^ 64).toNat = k.toNat + 2 := by
    rw [hint]
    omega
  rw [load, tooShort, hsum, halfAt]
  by_cases hshort : input.p.length < k.toNat + 2
  · rw [if_pos (decide_eq_true hshort)]
    cases hfirst : input.p[k.toNat]? with
    | none => rfl
    | some b0 =>
        rw [List.getElem?_eq_none (show input.p.length ≤ k.toNat + 1 by omega)]
        rfl
  · have hnext : (k.toNat : ℤ) + 1 = (k.toNat + 1 : ℕ) := by push_cast; rfl
    rw [if_neg (by simpa using hshort), extract, hint, hnext, readByte_nat,
      readByte_nat, List.getElem?_eq_getElem (show k.toNat < _ by omega),
      List.getElem?_eq_getElem (show k.toNat + 1 < _ by omega)]
    rfl

end Loads

/-! ## Verdicts -/

/-- Whatever is in the registers, the expression has this value; `none` is a
packet which is rejected on the way. -/
def Decides (input : Input) (e : Expr) (verdict : Option Bool) : Prop :=
  ∀ regs, (e.eval input regs).map Prod.fst = orReject verdict

namespace Verdict

def conj (a b : Option Bool) : Option Bool :=
  a.bind fun holds => if holds then b else some false

def disj (a b : Option Bool) : Option Bool :=
  a.bind fun holds => if holds then some true else b

def eq (read : Option UInt32) (v : UInt32) : Option Bool :=
  read.map fun value => decide (value = v)

end Verdict

section Decides

variable {input : Input} {e e₀ e₁ : Expr} {a b : Option Bool}

theorem Decides.cases (hdecides : Decides input e a) (regs : Regs) :
    (a = none ∧ e.eval input regs = .error (.ret 0)) ∨
      ∃ holds regs', a = some holds ∧ e.eval input regs = .ok (holds, regs') := by
  have hregs := hdecides regs
  cases heval : e.eval input regs with
  | error stop =>
      rw [heval] at hregs
      obtain ⟨ha, rfl⟩ := orReject_eq_error.mp hregs.symm
      exact Or.inl ⟨ha, rfl⟩
  | ok value =>
      rw [heval] at hregs
      exact Or.inr ⟨value.1, value.2, orReject_eq_ok.mp hregs.symm, rfl⟩

theorem Decides.and (hfirst : Decides input e₀ a) (hsecond : Decides input e₁ b) :
    Decides input (.and e₀ e₁) (Verdict.conj a b) := by
  intro regs
  rw [Expr.eval]
  rcases hfirst.cases regs with ⟨rfl, heval⟩ | ⟨holds, regs', rfl, heval⟩
  · rw [heval]
    rfl
  · rw [heval]
    cases holds with
    | true => exact hsecond regs'
    | false => rfl

theorem Decides.or (hfirst : Decides input e₀ a) (hsecond : Decides input e₁ b) :
    Decides input (.or e₀ e₁) (Verdict.disj a b) := by
  intro regs
  rw [Expr.eval]
  rcases hfirst.cases regs with ⟨rfl, heval⟩ | ⟨holds, regs', rfl, heval⟩
  · rw [heval]
    rfl
  · rw [heval]
    cases holds with
    | true => rfl
    | false => exact hsecond regs'

theorem Decides.not (hinner : Decides input e a) :
    Decides input (.not e) (a.map Bool.not) := by
  intro regs
  rw [Expr.eval]
  rcases hinner.cases regs with ⟨rfl, heval⟩ | ⟨holds, regs', rfl, heval⟩
  · rw [heval]
    rfl
  · rw [heval]
    rfl

/-- A test whose statements leave a read of the packet in the accumulator, and
which compares it with a constant. -/
theorem Decides.of_read
    (test : Test) (hsrc : test.src = .K) {read : Option UInt32}
    (hread : ∀ regs, (execStmts input test.stmts regs).map Regs.A = orReject read) :
    Decides input (.test test)
      (read.map fun value => test.op.holds value test.k) := by
  intro regs
  have hregs := hread regs
  rw [Expr.eval, Test.eval, hsrc]
  cases hexec : execStmts input test.stmts regs with
  | error stop =>
      rw [hexec] at hregs
      obtain ⟨rfl, rfl⟩ := orReject_eq_error.mp hregs.symm
      rfl
  | ok regs' =>
      rw [hexec] at hregs
      obtain rfl := orReject_eq_ok.mp hregs.symm
      rfl

theorem Decides.outcome
    (hdecides : Decides input e a) (snaplen : UInt32) (regs : Regs) :
    e.outcome snaplen input regs = .ret (if a = some true then snaplen else 0) := by
  rw [Expr.outcome]
  rcases hdecides.cases regs with ⟨rfl, heval⟩ | ⟨holds, regs', rfl, heval⟩
  · rw [heval]
    rfl
  · rw [heval]
    cases holds <;> rfl

end Decides

/-! ## The verdict on a packet -/

/-- The half word behind an IPv4 header, which starts at 14. -/
def transportHalfAt (p : List UInt8) (off : ℕ) : Option UInt32 := do
  let first ← p[14]?
  halfAt p (14 + 4 * (first.toNat % 16) + off)

section Packet

variable {input : Input}

theorem decides_absolute_byte (v : UInt32) {k : UInt32} (hk : k.toNat < 2 ^ 31) :
    Decides input (.test ⟨[⟨some (.ldAbs .B), k⟩], .jeq, .K, v⟩)
      (Verdict.eq (byteAt input.p k.toNat) v) := by
  refine .of_read ⟨[⟨some (.ldAbs .B), k⟩], .jeq, .K, v⟩ rfl fun regs => ?_
  simp only [execStmts, Stmt.exec, PlainOp.exec, load_byte hk]
  cases byteAt input.p k.toNat <;> rfl

theorem absolute_half_read {k : UInt32} (hk : k.toNat < 2 ^ 31 - 1) (regs : Regs) :
    (execStmts input [⟨some (.ldAbs .H), k⟩] regs).map Regs.A =
      orReject (halfAt input.p k.toNat) := by
  simp only [execStmts, Stmt.exec, PlainOp.exec, load_half hk]
  cases halfAt input.p k.toNat <;> rfl

theorem decides_absolute_half
    (v : UInt32) {k : UInt32} (hk : k.toNat < 2 ^ 31 - 1) :
    Decides input (.test ⟨[⟨some (.ldAbs .H), k⟩], .jeq, .K, v⟩)
      (Verdict.eq (halfAt input.p k.toNat) v) :=
  .of_read ⟨[⟨some (.ldAbs .H), k⟩], .jeq, .K, v⟩ rfl (absolute_half_read hk)

theorem decides_linktype (v : UInt32) :
    Decides input (linktypeExpr v) (Verdict.eq (halfAt input.p 12) v) :=
  decides_absolute_half v (k := 12) (by decide)

theorem decides_ipfrag :
    Decides input ipfragExpr
      ((halfAt input.p 20).map fun value => decide (value &&& 0x1fff = 0)) := by
  have hinner : Decides input (.test ⟨genLoadA .net 6 .H, .jset, .K, 0x1fff⟩) _ :=
    .of_read _ rfl (absolute_half_read (k := 20) (by decide))
  have houter := hinner.not
  rw [Option.map_map] at houter
  have hsame : (Bool.not ∘ fun value => JumpOp.holds .jset value 0x1fff) =
      fun value => decide (value &&& 0x1fff = 0) := by
    funext value
    simp [JumpOp.holds]
  rwa [hsame] at houter

theorem headerLength_toNat (byte : UInt8) :
    ((byte.toUInt32 &&& 0xf) <<< 2).toNat = 4 * (byte.toNat % 16) := by
  have hmask : byte.toNat &&& 15 = byte.toNat % 16 :=
    Nat.and_two_pow_sub_one_eq_mod _ 4
  simp [hmask, Nat.shiftLeft_eq]
  omega

theorem decides_transport (v off : UInt32) (hoff : off.toNat < 2 ^ 30) :
    Decides input (cmpExpr .tranIpv4 off .H v)
      (Verdict.eq (transportHalfAt input.p off.toNat) v) := by
  refine .of_read ⟨genLoadA .tranIpv4 off .H, .jeq, .K, v⟩ rfl fun regs => ?_
  have hshort : tooShort input (14 : UInt32).toInt32 .B =
      decide (input.p.length ≤ 14) := rfl
  have hread : readByte input ((14 : UInt32).toNat : ℤ) =
      match input.p[14]? with
      | some byte => .ok byte.toUInt32
      | none => .error .outOfPacket := readByte_nat 14
  change (execStmts input [⟨some .ldxMsh, 14⟩,
    ⟨some (.ldInd .H), 14 + 0 + off⟩] regs).map Regs.A = _
  simp only [execStmts, Stmt.exec, PlainOp.exec, hshort, hread, transportHalfAt]
  by_cases hlength : input.p.length ≤ 14
  · rw [if_pos (decide_eq_true hlength), List.getElem?_eq_none hlength]
    rfl
  · have hbyte := List.getElem?_eq_getElem (show 14 < input.p.length by omega)
    rw [if_neg (by simpa using hlength), hbyte]
    have hheader := headerLength_toNat input.p[14]
    have hk : (((input.p[14].toUInt32 &&& 0xf) <<< 2) + (14 + 0 + off)).toNat =
        14 + 4 * (input.p[14].toNat % 16) + off.toNat := by
      rw [UInt32.toNat_add, UInt32.toNat_add, hheader]
      simp
      omega
    simp only [bind, Except.bind, pure, Except.pure, Option.bind]
    rw [load_half (by rw [hk]; omega), hk]
    cases halfAt input.p _ <;> rfl

end Packet

/-! ## port and udp -/

namespace Verdict

/-- The pieces for the three transport protocols look at one byte. -/
def transport (proto : Option UInt32) (port : Option Bool) : Option Bool :=
  proto.bind fun value =>
    if value = ipprotoSctp ∨ value = ipprotoTcp ∨ value = ipprotoUdp then port
    else some false

theorem disj_transport (proto : Option UInt32) (port : Option Bool) :
    disj (conj (eq proto ipprotoSctp) port)
        (disj (conj (eq proto ipprotoTcp) port) (conj (eq proto ipprotoUdp) port)) =
      transport proto port := by
  cases proto with
  | none => rfl
  | some value =>
      by_cases hsctp : value = ipprotoSctp
      · subst hsctp
        cases port with
        | none => rfl
        | some holds => cases holds <;> rfl
      · by_cases htcp : value = ipprotoTcp
        · subst htcp
          cases port with
          | none => rfl
          | some holds => cases holds <;> rfl
        · by_cases hudp : value = ipprotoUdp
          · subst hudp
            cases port with
            | none => rfl
            | some holds => cases holds <;> rfl
          · simp [disj, conj, eq, transport, hsctp, htcp, hudp]

theorem conj_assoc (a b c : Option Bool) : conj (conj a b) c = conj a (conj b c) := by
  cases a with
  | none => rfl
  | some holds => cases holds <;> rfl

theorem conj_eq_true {a b : Option Bool} :
    conj a b = some true ↔ a = some true ∧ b = some true := by
  cases a with
  | none => simp [conj]
  | some holds => cases holds <;> simp [conj]

theorem eq_eq_true {read : Option UInt32} {v : UInt32} :
    eq read v = some true ↔ read = some v := by
  simp [eq]

theorem transport_eq_true {proto : Option UInt32} {port : Option Bool} :
    transport proto port = some true ↔
      (proto = some ipprotoSctp ∨ proto = some ipprotoTcp ∨
        proto = some ipprotoUdp) ∧ port = some true := by
  cases proto with
  | none => simp [transport]
  | some value =>
      simp only [transport, Option.bind_some, Option.some.injEq]
      split_ifs with hproto
      · simp [hproto]
      · simp [hproto]

/-- Of two reads, the second one behind the first. -/
theorem disj_eq_eq_true
    {read read' : Option UInt32} (hbehind : read = none → read' = none) {v : UInt32} :
    disj (eq read v) (eq read' v) = some true ↔ read = some v ∨ read' = some v := by
  cases read with
  | none => simp [disj, eq, hbehind rfl]
  | some value => by_cases hvalue : value = v <;> simp [disj, eq, hvalue]

theorem disj_some_false (a : Option Bool) : disj a (some false) = a := by
  cases a with
  | none => rfl
  | some holds => cases holds <;> rfl

/-- The Ethernet type decides which half of either expression counts, and of
the transport protocols only UDP passes both. -/
theorem port_and_udp
    (etherType next proto next' : Option UInt32) (port6 port : Option Bool) :
    disj (conj (eq etherType ethertypeIpv6) (transport next port6))
          (conj (eq etherType ethertypeIp) (transport proto port)) = some true ∧
        disj
          (conj (eq etherType ethertypeIpv6) (disj (eq next ipprotoUdp)
            (conj (eq next ipprotoFragment) (eq next' ipprotoUdp))))
          (conj (eq etherType ethertypeIp) (eq proto ipprotoUdp)) = some true ↔
      etherType = some ethertypeIpv6 ∧ next = some ipprotoUdp ∧ port6 = some true ∨
        etherType = some ethertypeIp ∧ proto = some ipprotoUdp ∧ port = some true := by
  cases etherType with
  | none => simp [disj, conj, eq]
  | some value =>
      by_cases hipv6 : value = ethertypeIpv6
      · have hyes : eq (some value) ethertypeIpv6 = some true := eq_eq_true.mpr
          (congrArg some hipv6)
        have hno : eq (some value) ethertypeIp = some false := by
          rw [hipv6]
          rfl
        have hne : value ≠ ethertypeIp := by
          rw [hipv6]
          decide
        have hconj : ∀ a, conj (some true) a = a := fun _ => rfl
        have hconj' : ∀ a, conj (some false) a = some false := fun _ => rfl
        rw [hyes, hno, hconj, hconj, hconj', hconj', disj_some_false,
          disj_some_false, transport_eq_true]
        constructor
        · rintro ⟨⟨hnext, hport⟩, hudp⟩
          refine Or.inl ⟨congrArg some hipv6, ?_, hport⟩
          rcases hnext with rfl | rfl | rfl
          · exact absurd (show some false = some true from hudp) (by decide)
          · exact absurd (show some false = some true from hudp) (by decide)
          · rfl
        · rintro (⟨_, rfl, hport⟩ | ⟨hip, _⟩)
          · exact ⟨⟨Or.inr (Or.inr rfl), hport⟩, rfl⟩
          · exact absurd (Option.some.inj hip) hne
      · have hno : eq (some value) ethertypeIpv6 = some false := by
          simp [eq, hipv6]
        have hconj' : ∀ a, conj (some false) a = some false := fun _ => rfl
        have hdisj : ∀ a, disj (some false) a = a := fun _ => rfl
        rw [hno, hconj', hconj', hdisj, hdisj, conj_eq_true, conj_eq_true, eq_eq_true,
          eq_eq_true, transport_eq_true, Option.some.injEq, Option.some.injEq]
        constructor
        · rintro ⟨⟨hip, _, hport⟩, _, hudp⟩
          exact Or.inr ⟨hip, hudp, hport⟩
        · rintro (⟨hno6, _⟩ | ⟨hip, hudp, hport⟩)
          · exact absurd hno6 hipv6
          · exact ⟨⟨hip, Or.inr (Or.inr hudp), hport⟩, hip, hudp⟩

end Verdict

section Port

variable {input : Input}

theorem decides_transport_protocols
    {portop : UInt32 → Expr} {read : Option UInt32} {port : Option Bool}
    (hportop : ∀ proto, Decides input (portop proto)
      (Verdict.conj (Verdict.eq read proto) port)) :
    Decides input (portProtoExpr portop .undef) (Verdict.transport read port) := by
  rw [← Verdict.disj_transport]
  exact (hportop _).or ((hportop _).or (hportop _))

def ipv4Port (p : List UInt8) (v : UInt32) : Option Bool :=
  Verdict.conj ((halfAt p 20).map fun value => decide (value &&& 0x1fff = 0))
    (Verdict.disj (Verdict.eq (transportHalfAt p 0) v)
      (Verdict.eq (transportHalfAt p 2) v))

def ipv6Port (p : List UInt8) (v : UInt32) : Option Bool :=
  Verdict.disj (Verdict.eq (halfAt p 54) v) (Verdict.eq (halfAt p 56) v)

theorem decides_ncodePort (v : UInt32) :
    Decides input (ncodePortExpr v .undef .default)
      (Verdict.disj
        (Verdict.conj (Verdict.eq (halfAt input.p 12) ethertypeIpv6)
          (Verdict.transport (byteAt input.p 20) (ipv6Port input.p v)))
        (Verdict.conj (Verdict.eq (halfAt input.p 12) ethertypeIp)
          (Verdict.transport (byteAt input.p 23) (ipv4Port input.p v)))) := by
  refine .or (.and (decides_linktype _) (decides_transport_protocols fun proto => ?_))
    (.and (decides_linktype _) (decides_transport_protocols fun proto => ?_))
  · exact (decides_absolute_byte proto (k := 20) (by decide)).and
      ((decides_absolute_half v (k := 54) (by decide)).or
        (decides_absolute_half v (k := 56) (by decide)))
  · rw [ipv4Port, ← Verdict.conj_assoc]
    exact ((decides_absolute_byte proto (k := 23) (by decide)).and
      decides_ipfrag).and
      ((decides_transport v 0 (by decide)).or
        (decides_transport v 2 (by decide)))

theorem decides_protoAbbrev (v : UInt32) :
    Decides input (protoAbbrevExpr v)
      (Verdict.disj
        (Verdict.conj (Verdict.eq (halfAt input.p 12) ethertypeIpv6)
          (Verdict.disj (Verdict.eq (byteAt input.p 20) v)
            (Verdict.conj (Verdict.eq (byteAt input.p 20) ipprotoFragment)
              (Verdict.eq (byteAt input.p 54) v))))
        (Verdict.conj (Verdict.eq (halfAt input.p 12) ethertypeIp)
          (Verdict.eq (byteAt input.p 23) v))) :=
  .or (.and (decides_linktype _)
      (.or (decides_absolute_byte v (k := 20) (by decide))
        (.and (decides_absolute_byte _ (k := 20) (by decide))
          (decides_absolute_byte v (k := 54) (by decide)))))
    (.and (decides_linktype _) (decides_absolute_byte v (k := 23) (by decide)))

/-- A datagram of UDP to or from the port: IPv6 without extension headers, or
the first fragment of IPv4, with the port fields in the packet. -/
def UdpPort (p : List UInt8) (v : UInt32) : Prop :=
  halfAt p 12 = some ethertypeIpv6 ∧ byteAt p 20 = some ipprotoUdp ∧
      (halfAt p 54 = some v ∨ halfAt p 56 = some v) ∨
    halfAt p 12 = some ethertypeIp ∧ byteAt p 23 = some ipprotoUdp ∧
      (halfAt p 20).map (· &&& 0x1fff) = some 0 ∧
      (transportHalfAt p 0 = some v ∨ transportHalfAt p 2 = some v)

instance (p : List UInt8) (v : UInt32) : Decidable (UdpPort p v) :=
  inferInstanceAs (Decidable (_ ∧ _ ∧ (_ ∨ _) ∨ _ ∧ _ ∧ _ ∧ (_ ∨ _)))

theorem halfAt_behind {p : List UInt8} {i : ℕ} (hnone : halfAt p i = none) :
    halfAt p (i + 2) = none := by
  have hlength : p.length ≤ i + 1 := by
    by_contra hlt
    rw [halfAt, List.getElem?_eq_getElem (by omega),
      List.getElem?_eq_getElem (by omega)] at hnone
    cases hnone
  rw [halfAt, List.getElem?_eq_none (by omega)]
  rfl

theorem transportHalfAt_behind
    {p : List UInt8} (hnone : transportHalfAt p 0 = none) :
    transportHalfAt p 2 = none := by
  rw [transportHalfAt] at hnone ⊢
  cases hfirst : p[14]? with
  | none => rfl
  | some first =>
      rw [hfirst] at hnone
      exact halfAt_behind hnone

theorem ipv6Port_eq_true {p : List UInt8} {v : UInt32} :
    ipv6Port p v = some true ↔ halfAt p 54 = some v ∨ halfAt p 56 = some v :=
  Verdict.disj_eq_eq_true halfAt_behind

theorem ipv4Port_eq_true {p : List UInt8} {v : UInt32} :
    ipv4Port p v = some true ↔ (halfAt p 20).map (· &&& 0x1fff) = some 0 ∧
      (transportHalfAt p 0 = some v ∨ transportHalfAt p 2 = some v) := by
  rw [ipv4Port, Verdict.conj_eq_true,
    Verdict.disj_eq_eq_true transportHalfAt_behind]
  simp

theorem decides_portAndUdp (v : UInt32) :
    ∃ verdict, Decides input (.and (ncodePortExpr v .undef .default)
        (protoAbbrevExpr ipprotoUdp)) verdict ∧
      (verdict = some true ↔ UdpPort input.p v) := by
  refine ⟨_, (decides_ncodePort v).and (decides_protoAbbrev ipprotoUdp), ?_⟩
  rw [Verdict.conj_eq_true, UdpPort, ← ipv6Port_eq_true, ← ipv4Port_eq_true]
  exact Verdict.port_and_udp _ _ _ _ _ _

end Port

/-! ## The program -/

def portAndUdpExpr (v : UInt32) : Expr :=
  .and (ncodePortExpr v .undef .default) (protoAbbrevExpr ipprotoUdp)

theorem portAndUdpExpr_valid (v : UInt32) : (portAndUdpExpr v).valid := by
  -- the port is not in the statements
  have hsame : (portAndUdpExpr v).leaves.map Test.stmts =
      (portAndUdpExpr 0).leaves.map Test.stmts := rfl
  have hzero : ∀ stmts ∈ (portAndUdpExpr 0).leaves.map Test.stmts,
      ∀ stmt ∈ stmts, stmt.valid = true := by
    decide
  intro test htest
  refine hzero test.stmts ?_
  rw [← hsame]
  exact List.mem_map_of_mem htest

theorem portAndUdp_outcome
    (v snaplen : UInt32) (input : Input) (regs : Regs) :
    (portAndUdpExpr v).outcome snaplen input regs =
      .ret (if UdpPort input.p v then snaplen else 0) := by
  obtain ⟨verdict, hdecides, htrue⟩ := @decides_portAndUdp input v
  rw [portAndUdpExpr, hdecides.outcome]
  simp only [htrue]

theorem parsePortAndUdp_compiles
    {v snaplen : UInt32} (hv : v ≤ 65535) (hsnaplen : snaplen ≠ 0) :
    ∃ prog, pcapCompile (some (parsePortAndUdp v)) snaplen = some prog ∧
      installBpfProgram prog = some prog ∧
      ∀ input mem, bpfFilter (some prog) input mem prog.length =
        some ((portAndUdpExpr v).outcome snaplen input ⟨0, 0, mem⟩) := by
  have hsize : (portAndUdpExpr v).size + 6 < 2 ^ 31 := by
    change (portAndUdpExpr 0).size + 6 < 2 ^ 31
    decide
  exact (parsePortAndUdp_builds v hv).compile (portAndUdpExpr_valid v) hsize
    hsnaplen

/-- For every port, `pcap_compile` makes a program of `port v and udp` which
can be installed and keeps the packets of UDP to or from the port, and no
others: whatever the packet is, it is read within its bounds. -/
theorem portAndUdp_keeps
    {v snaplen : UInt32} (hv : v ≤ 65535) (hsnaplen : snaplen ≠ 0) :
    ∃ prog, pcapCompile (some (parsePortAndUdp v)) snaplen = some prog ∧
      installBpfProgram prog = some prog ∧
      ∀ input mem, bpfFilter (some prog) input mem prog.length =
        some (.ret (if UdpPort input.p v then snaplen else 0)) := by
  obtain ⟨prog, hprog, hinstall, hfilter⟩ := parsePortAndUdp_compiles hv hsnaplen
  refine ⟨prog, hprog, hinstall, fun input mem => ?_⟩
  rw [hfilter, portAndUdp_outcome]

theorem portAndUdp_keeps_shipped :
    (4567 : UInt32) ≤ 65535 ∧
      ∃ prog, pcapCompile (some filterExp) 8192 = some prog ∧
        installBpfProgram prog = some prog ∧
        ∀ input mem, bpfFilter (some prog) input mem prog.length =
          some (.ret (if UdpPort input.p 4567 then 8192 else 0)) := by
  have hv : (4567 : UInt32) ≤ 65535 := by decide
  exact ⟨hv, portAndUdp_keeps hv (by decide)⟩

end Bpf
end StockFeed
