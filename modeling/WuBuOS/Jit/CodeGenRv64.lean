import WuBuOS.Jit.CodeGen
import WuBuOS.Lib.Rv64

/-!
# The RV64 back end

`jit/jit_codegen_rv64.c`, and the functions of the encoder `jit/wubu_rv64.c` that it uses.  There are no flags: a
comparison leaves the difference in `T6`, which no neutral register up to 13 is mapped to.

All other calls leave what they should (`rv64_bin`, `rv64_shift`, `rv64_mov`).  Of a comparison the condition is one
of the difference (`rv64Truth`), and `rv64_compares_iff` says where this is the same.
-/

namespace WuBuOS.CodeGen

open Function (update update_of_ne update_self)

/-! ## The encoder -/

abbrev rvOpOpImm : Nat := 0x13
abbrev rvOpOp : Nat := 0x33

abbrev rvF3Add : Nat := 0x0
abbrev rvF3Sll : Nat := 0x1
abbrev rvF3Xor : Nat := 0x4
abbrev rvF3Srl : Nat := 0x5
abbrev rvF3Or : Nat := 0x6
abbrev rvF3And : Nat := 0x7
abbrev rvF3Sub : Nat := 0x0

abbrev rvF7Add : Nat := 0x00
abbrev rvF7Sub : Nat := 0x20
abbrev rvF7Mul : Nat := 0x01
abbrev rvF7Div : Nat := 0x01
abbrev rvF7Rem : Nat := 0x01

abbrev RV64Reg := Fin 32

abbrev rvX0 : RV64Reg := 0
abbrev rvSp : RV64Reg := 2
abbrev rvT0 : RV64Reg := 5
abbrev rvT6 : RV64Reg := 31

def rv64Emit (w : Nat) : List UInt8 := Bytes.le 4 w

def rvRType (funct7 : Nat) (rs2 rs1 : RV64Reg) (funct3 : Nat) (rd : RV64Reg) (opcode : Nat) : Nat :=
  (funct7 &&& 0x7F) <<< 25 ||| (rs2.val &&& 0x1F) <<< 20 ||| (rs1.val &&& 0x1F) <<< 15 ||| (funct3 &&& 0x7) <<< 12 |||
    (rd.val &&& 0x1F) <<< 7 ||| opcode

/-- `imm` is an `int16_t`. -/
def rvIType (imm : BitVec 16) (rs1 : RV64Reg) (funct3 : Nat) (rd : RV64Reg) (opcode : Nat) : Nat :=
  (imm.toNat &&& 0xFFF) <<< 20 ||| (rs1.val &&& 0x1F) <<< 15 ||| (funct3 &&& 0x7) <<< 12 ||| (rd.val &&& 0x1F) <<< 7 |||
    opcode

def rv64Add (rd rs1 rs2 : RV64Reg) : List UInt8 := rv64Emit (rvRType rvF7Add rs2 rs1 rvF3Add rd rvOpOp)

def rv64Sub (rd rs1 rs2 : RV64Reg) : List UInt8 := rv64Emit (rvRType rvF7Sub rs2 rs1 rvF3Sub rd rvOpOp)

def rv64Mul (rd rs1 rs2 : RV64Reg) : List UInt8 := rv64Emit (rvRType rvF7Mul rs2 rs1 rvF3Add rd rvOpOp)

def rv64Div (rd rs1 rs2 : RV64Reg) : List UInt8 := rv64Emit (rvRType rvF7Div rs2 rs1 0x4 rd rvOpOp)

def rv64Rem (rd rs1 rs2 : RV64Reg) : List UInt8 := rv64Emit (rvRType rvF7Rem rs2 rs1 0x6 rd rvOpOp)

def rv64And (rd rs1 rs2 : RV64Reg) : List UInt8 := rv64Emit (rvRType rvF7Add rs2 rs1 rvF3And rd rvOpOp)

def rv64Or (rd rs1 rs2 : RV64Reg) : List UInt8 := rv64Emit (rvRType rvF7Add rs2 rs1 rvF3Or rd rvOpOp)

def rv64Xor (rd rs1 rs2 : RV64Reg) : List UInt8 := rv64Emit (rvRType rvF7Add rs2 rs1 rvF3Xor rd rvOpOp)

def rv64Slt (rd rs1 rs2 : RV64Reg) : List UInt8 := rv64Emit (rvRType rvF7Add rs2 rs1 0x2 rd rvOpOp)

def rv64Addi (rd rs1 : RV64Reg) (imm : BitVec 16) : List UInt8 := rv64Emit (rvIType imm rs1 rvF3Add rd rvOpOpImm)

def rv64Xori (rd rs1 : RV64Reg) (imm : BitVec 16) : List UInt8 := rv64Emit (rvIType imm rs1 rvF3Xor rd rvOpOpImm)

def rv64Sltiu (rd rs1 : RV64Reg) (imm : BitVec 16) : List UInt8 := rv64Emit (rvIType imm rs1 0x3 rd rvOpOpImm)

def rv64Slli (rd rs1 : RV64Reg) (shamt : UInt8) : List UInt8 :=
  rv64Emit (rvIType (.ofNat 16 (shamt.toNat &&& 0x3F)) rs1 rvF3Sll rd rvOpOpImm)

def rv64Srli (rd rs1 : RV64Reg) (shamt : UInt8) : List UInt8 :=
  rv64Emit (rvIType (.ofNat 16 (shamt.toNat &&& 0x3F)) rs1 rvF3Srl rd rvOpOpImm)

def rv64Srai (rd rs1 : RV64Reg) (shamt : UInt8) : List UInt8 :=
  rv64Emit (rvIType (.ofNat 16 (shamt.toNat &&& 0x3F ||| 0x400)) rs1 rvF3Srl rd rvOpOpImm)

def rv64Mv (rd rs : RV64Reg) : List UInt8 := rv64Addi rd rs 0

/-! ## The table -/

/-- The entries of `map` in front of the aliases. -/
def rv64Map : List RV64Reg := [10, 11, 12, 13, 14, 15, 16, 17, 5, 6, 7, 28, 29, 30, 31, 2]

def cgToRv64 (r : CGReg) : RV64Reg := if r < 16 then rv64Map.getD r rvT0 else rvT0

/-- An operation of three registers. -/
def rv64ThreeReg (op : RV64Reg → RV64Reg → RV64Reg → List UInt8) (rd rn rm : CGReg) : List UInt8 :=
  op (cgToRv64 rd) (cgToRv64 rn) (cgToRv64 rm)

def rv64AddReg : CGReg → CGReg → CGReg → List UInt8 := rv64ThreeReg rv64Add

def rv64SubReg : CGReg → CGReg → CGReg → List UInt8 := rv64ThreeReg rv64Sub

def rv64MulReg : CGReg → CGReg → CGReg → List UInt8 := rv64ThreeReg rv64Mul

def rv64DivReg : CGReg → CGReg → CGReg → List UInt8 := rv64ThreeReg rv64Div

def rv64ModReg : CGReg → CGReg → CGReg → List UInt8 := rv64ThreeReg rv64Rem

def rv64AndReg : CGReg → CGReg → CGReg → List UInt8 := rv64ThreeReg rv64And

def rv64OrrReg : CGReg → CGReg → CGReg → List UInt8 := rv64ThreeReg rv64Or

def rv64EorReg : CGReg → CGReg → CGReg → List UInt8 := rv64ThreeReg rv64Xor

def rv64LslImm (rd rn : CGReg) (s : UInt8) : List UInt8 := rv64Slli (cgToRv64 rd) (cgToRv64 rn) s

def rv64LsrImm (rd rn : CGReg) (s : UInt8) : List UInt8 := rv64Srli (cgToRv64 rd) (cgToRv64 rn) s

def rv64AsrImm (rd rn : CGReg) (s : UInt8) : List UInt8 := rv64Srai (cgToRv64 rd) (cgToRv64 rn) s

def rv64MovReg (rd rn : CGReg) : List UInt8 := rv64Mv (cgToRv64 rd) (cgToRv64 rn)

def rv64CmpReg (rn rm : CGReg) : List UInt8 := rv64Sub rvT6 (cgToRv64 rn) (cgToRv64 rm)

/-- Where `T6` is to be unequal to 0 there is the code for equal to 0; conditions without a case are never true. -/
def rv64Cset (rd : CGReg) : CGCC → List UInt8
  | .ne => rv64Sltiu (cgToRv64 rd) rvT6 1
  | .eq => rv64Sltiu rvT6 rvT6 1 ++ rv64Addi (cgToRv64 rd) rvT6 0
  | .lt => rv64Slt (cgToRv64 rd) rvT6 rvX0
  | .ge => rv64Slt rvT6 rvT6 rvX0 ++ rv64Xori (cgToRv64 rd) rvT6 1
  | _ => rv64Addi (cgToRv64 rd) rvX0 0

def rv64CmpRegCc (rn rm : CGReg) (cond : CGCC) : List UInt8 := rv64CmpReg rn rm ++ rv64Cset rn cond

def rv64Vtable : CodeGenVTable where
  addReg := rv64AddReg
  subReg := rv64SubReg
  mulReg := rv64MulReg
  divReg := rv64DivReg
  modReg := rv64ModReg
  andReg := rv64AndReg
  orrReg := rv64OrrReg
  eorReg := rv64EorReg
  lslImm := rv64LslImm
  lsrImm := rv64LsrImm
  asrImm := rv64AsrImm
  movReg := rv64MovReg
  cmpRegCc := rv64CmpRegCc

/-- Where a neutral register is. -/
def rv64Reg (r : Operand) : Rv64.Reg := cgToRv64 r.cg

def rv64Target : Target where
  State := Rv64.State
  vt := rv64Vtable
  exec := Rv64.exec
  reg s r := s.get (rv64Reg r)
  sp s := s.get rvSp

/-! ## What the encoder's words mean -/

open WordCode

theorem rvRType_eq {funct7 funct3 : Nat} (rs2 rs1 rd : RV64Reg) (h7 : funct7 < 2 ^ 7) (h3 : funct3 < 2 ^ 3) :
    rvRType funct7 rs2 rs1 funct3 rd rvOpOp = funct7 * 2 ^ 25 + rs2.val * 2 ^ 20 + rs1.val * 2 ^ 15 +
      funct3 * 2 ^ 12 + rd.val * 2 ^ 7 + rvOpOp := by
  have m7 : funct7 &&& 0x7F = funct7 := mask h7
  have m3 : funct3 &&& 0x7 = funct3 := mask h3
  rw [rvRType, m7, m3, maskReg, maskReg, maskReg, Nat.shiftLeft_eq, or_shift (n := 5) (by omega) rs2.isLt,
    or_shift (n := 5) (by omega) rs1.isLt, or_shift (n := 3) (by omega) h3, or_shift (n := 5) (by omega) rd.isLt, or_low (n := 7) (by omega) (by decide)]

theorem rvIType_eq {v funct3 : Nat} (rs1 rd : RV64Reg) (hv : v < 2 ^ 12) (h3 : funct3 < 2 ^ 3) :
    rvIType (.ofNat 16 v) rs1 funct3 rd rvOpOpImm = v * 2 ^ 20 + rs1.val * 2 ^ 15 + funct3 * 2 ^ 12 +
      rd.val * 2 ^ 7 + rvOpOpImm := by
  have mv : (BitVec.ofNat 16 v).toNat &&& 0xFFF = v := by
    rw [BitVec.toNat_ofNat, Nat.mod_eq_of_lt (by omega)]
    exact mask hv
  have m3 : funct3 &&& 0x7 = funct3 := mask h3
  rw [rvIType, mv, m3, maskReg, maskReg, Nat.shiftLeft_eq, or_shift (n := 5) (by omega) rs1.isLt,
    or_shift (n := 3) (by omega) h3, or_shift (n := 5) (by omega) rd.isLt, or_low (n := 7) (by omega) (by decide)]

theorem rv64_encodes_op {funct7 funct3 : Nat} {o : Rv64.Op} (rd rs1 rs2 : RV64Reg) (ho : Rv64.opOf funct7 funct3 = some o)
    (h7 : funct7 < 2 ^ 7) (h3 : funct3 < 2 ^ 3) :
    Rv64.Encodes (rv64Emit (rvRType funct7 rs2 rs1 funct3 rd rvOpOp)) [.op o rd rs1 rs2] := by
  rw [rvRType_eq rs2 rs1 rd h7 h3]
  exact Rv64.encodes_op rs2.isLt rs1.isLt rd.isLt ho h7 h3

theorem rv64_encodes_imm {v funct3 : Nat} {o : Rv64.ImmOp} (rd rs1 : RV64Reg) (ho : Rv64.immOpOf funct3 = some o)
    (hv : v < 2 ^ 12) (h3 : funct3 < 2 ^ 3) (hne : funct3 ≠ 1 ∧ funct3 ≠ 5) :
    Rv64.Encodes (rv64Emit (rvIType (.ofNat 16 v) rs1 funct3 rd rvOpOpImm)) [.imm o rd rs1 (.ofNat 12 v)] := by
  rw [rvIType_eq rs1 rd hv h3]
  exact Rv64.encodes_imm hv rs1.isLt rd.isLt ho h3 hne

theorem rv64_encodes_shift {v f6 funct3 : Nat} {o : Rv64.ShiftOp} (rd rs1 : RV64Reg) (n : Fin 64)
    (hv : v = f6 * 2 ^ 6 + n) (ho : Rv64.shiftOf funct3 f6 = some o) (hf6 : f6 < 64) (h3 : funct3 = 1 ∨ funct3 = 5) :
    Rv64.Encodes (rv64Emit (rvIType (.ofNat 16 v) rs1 funct3 rd rvOpOpImm)) [.shift o rd rs1 n] := by
  have hn := n.isLt
  rw [hv, rvIType_eq rs1 rd (by omega) (by omega)]
  exact Rv64.encodes_shift hn rs1.isLt rd.isLt ho hf6 h3

/-- The amount of a shift, as it is put into the word. -/
theorem rv64_shamt (n : Fin 64) : (UInt8.ofNat n).toNat &&& 0x3F = n ∧ (UInt8.ofNat n).toNat &&& 0x3F ||| 0x400 = 0x10 * 2 ^ 6 + n := by
  revert n
  decide

/-! ## The law -/

section

variable {s : Rv64.State} {c : Call}

theorem rv64Reg_inj {r r' : Operand} (h : rv64Reg r = rv64Reg r') : r = r' := by
  revert r r'
  decide

theorem rv64Reg_ne (r : Operand) : rv64Reg r ≠ 0 ∧ rv64Reg r ≠ rvSp ∧ rv64Reg r ≠ rvT6 := by
  revert r
  decide

theorem rv64_reg_set (s : Rv64.State) (d : Operand) (v : BitVec 64) :
    rv64Target.reg (s.set (rv64Reg d) v) = update (rv64Target.reg s) d v := by
  funext r
  by_cases h : r = d
  · rw [h, update_self]
    exact Rv64.get_set_self (rv64Reg_ne d).1
  · rw [update_of_ne h]
    exact Rv64.get_set_of_ne fun he => h (rv64Reg_inj he)

theorem rv64_sp_set (s : Rv64.State) (d : Operand) (v : BitVec 64) :
    rv64Target.sp (s.set (rv64Reg d) v) = rv64Target.sp s := Rv64.get_set_of_ne (rv64Reg_ne d).2.1.symm

theorem rv64_reg_scratch (s : Rv64.State) (v : BitVec 64) : rv64Target.reg (s.set rvT6 v) = rv64Target.reg s :=
  funext fun r => Rv64.get_set_of_ne (rv64Reg_ne r).2.2

theorem rv64_sp_scratch (s : Rv64.State) (v : BitVec 64) : rv64Target.sp (s.set rvT6 v) = rv64Target.sp s := by
  show (s.set rvT6 v).get rvSp = s.get rvSp
  exact Rv64.get_set_of_ne (by decide)

/-- A single instruction that sets the register to the result. -/
theorem rv64_does {i : Rv64.Instr} (henc : Rv64.Encodes (c.code rv64Vtable) [i])
    (hi : Rv64.step s i = some (s.set (rv64Reg c.dst) (c.result (rv64Target.reg s)))) : rv64Target.Does c s  :=
  ⟨_, (henc.exec_one s).trans hi, rv64_sp_set s c.dst _, rv64_reg_set s c.dst _⟩

theorem rv64_bin (op : BinOp) (rd rn rm : Operand) : rv64Target.Lawful (.bin op rd rn rm) := by
  intro s hs
  cases op with
  | add | sub | mul | and | orr | eor =>
    exact rv64_does (rv64_encodes_op (rv64Reg rd) (rv64Reg rn) (rv64Reg rm) rfl (by decide) (by decide)) rfl
  | div | mod =>
    refine rv64_does (rv64_encodes_op (rv64Reg rd) (rv64Reg rn) (rv64Reg rm) rfl (by decide) (by decide)) ?_
    exact congrArg (fun v => some (s.set (rv64Reg rd) v)) (if_neg hs.1)

theorem rv64_mov (rd rn : Operand) : rv64Target.Lawful (.mov rd rn) := fun s _ => by
  refine rv64_does (rv64_encodes_imm (rv64Reg rd) (rv64Reg rn) rfl (by decide) (by decide) (by decide)) ?_
  exact congrArg (fun v => some (s.set (rv64Reg rd) v)) (BitVec.add_zero _)

theorem rv64_shift (op : ShiftOp) (rd rn : Operand) (n : Fin 64) : rv64Target.Lawful (.shift op rd rn n) := by
  intro s _
  obtain ⟨hlow, hsign⟩ := rv64_shamt n
  have hlow := hlow.trans (show (n : Nat) = 0 * 2 ^ 6 + n by omega)
  cases op with
  | lsl | lsr => exact rv64_does (rv64_encodes_shift (rv64Reg rd) (rv64Reg rn) n hlow rfl (by decide) (by decide)) rfl
  | asr => exact rv64_does (rv64_encodes_shift (rv64Reg rd) (rv64Reg rn) n hsign rfl (by decide) (by decide)) rfl

/-! ## Comparisons -/

/-- What is left in the register after a comparison. -/
def rv64Truth (a b : BitVec 64) : Cond → BitVec 64
  | .eq | .ne => truth (a - b == 0)
  | .lt => truth ((a - b).slt 0)
  | .ge => truth (!(a - b).slt 0)
  | .gt | .le => 0

theorem ult_one (a : BitVec 64) : (if a.ult 1 then (1 : BitVec 64) else 0) = truth (a == 0) := by
  unfold truth
  congr 1
  rw [BitVec.ult_iff_lt, BitVec.lt_def, beq_iff_eq, ← BitVec.toNat_inj, eq_iff_iff]
  exact Nat.lt_one_iff

theorem truth_xor (b : Bool) : truth b ^^^ 1 = truth !b := by
  cases b <;> decide

/-- The difference is in `T6`, and all else as it was. -/
def rv64Compared (s : Rv64.State) (rn rm : Operand) : Rv64.State :=
  s.set rvT6 (s.get (rv64Reg rn) - s.get (rv64Reg rm))

/-- The comparison, and the instructions behind it. -/
theorem rv64_lands_compared {rn rm rd : Operand} {v : BitVec 64} {b : List UInt8} {is : List Rv64.Instr}
    (henc : Rv64.Encodes b is) (h : rv64Target.Lands s rd v (MachineCode.run Rv64.step is (rv64Compared s rn rm))) :
    rv64Target.Lands s rd v (Rv64.exec (rv64CmpReg rn.cg rm.cg ++ b) s) := by
  have hsub : Rv64.Encodes (rv64CmpReg rn.cg rm.cg) [.op .sub rvT6 (rv64Reg rn) (rv64Reg rm)] :=
    rv64_encodes_op rvT6 (rv64Reg rn) (rv64Reg rm) rfl (by decide) (by decide)
  have hrun : Rv64.exec (rv64CmpReg rn.cg rm.cg ++ b) s = MachineCode.run Rv64.step is (rv64Compared s rn rm) :=
    (hsub.append henc).exec s
  rwa [hrun]

theorem rv64_land {u : Rv64.State} (hreg : rv64Target.reg u = rv64Target.reg s)
    (hsp : rv64Target.sp u = rv64Target.sp s) {rd : Operand} {v w : BitVec 64} (hv : w = v) :
    rv64Target.Lands s rd v (some (u.set (rv64Reg rd) w)) :=
  ⟨_, rfl, (rv64_sp_set u rd w).trans hsp, (rv64_reg_set u rd w).trans (by rw [hreg, hv])⟩

theorem rv64_land_scratch {u : Rv64.State} (hreg : rv64Target.reg u = rv64Target.reg s)
    (hsp : rv64Target.sp u = rv64Target.sp s) (w : BitVec 64) {rd : Operand} {v w' : BitVec 64} (hv : w' = v) :
    rv64Target.Lands s rd v (some ((u.set rvT6 w).set (rv64Reg rd) w')) :=
  rv64_land ((rv64_reg_scratch u w).trans hreg) ((rv64_sp_scratch u w).trans hsp) hv

/-- **A comparison** leaves `rv64Truth` in its register, and all else as it was. -/
theorem rv64_cmp_run (cond : Cond) (rn rm : Operand) (s : Rv64.State) :
    rv64Target.Lands s rn (rv64Truth (rv64Target.reg s rn) (rv64Target.reg s rm) cond)
      (rv64Target.exec ((Call.cmp cond rn rm).code rv64Vtable) s) := by
  have ht6 : (rv64Compared s rn rm).get rvT6 = _ := Rv64.get_set_self (by decide)
  have hreg : rv64Target.reg (rv64Compared s rn rm) = rv64Target.reg s := rv64_reg_scratch s _
  have hsp : rv64Target.sp (rv64Compared s rn rm) = rv64Target.sp s := rv64_sp_scratch s _
  have hself : ∀ (u : Rv64.State) (v : BitVec 64), (u.set rvT6 v).get rvT6 = v := fun _ _ => Rv64.get_set_self (by decide)
  have hsltiu : ∀ rd, Rv64.Encodes (rv64Sltiu rd rvT6 1) [.imm .sltiu rd rvT6 1] := fun rd =>
    rv64_encodes_imm (v := 1) rd rvT6 rfl (by decide) (by decide) (by decide)
  have hslt : ∀ rd, Rv64.Encodes (rv64Slt rd rvT6 rvX0) [.op .slt rd rvT6 rvX0] := fun rd =>
    rv64_encodes_op rd rvT6 rvX0 rfl (by decide) (by decide)
  have haddi : ∀ rs, Rv64.Encodes (rv64Addi (rv64Reg rn) rs 0) [.imm .addi (rv64Reg rn) rs 0] := fun rs =>
    rv64_encodes_imm (v := 0) (rv64Reg rn) rs rfl (by decide) (by decide) (by decide)
  have hxori : Rv64.Encodes (rv64Xori (rv64Reg rn) rvT6 1) [.imm .xori (rv64Reg rn) rvT6 1] :=
    rv64_encodes_imm (v := 1) (rv64Reg rn) rvT6 rfl (by decide) (by decide) (by decide)
  cases cond with
  | ne =>
    refine rv64_lands_compared (hsltiu _) (rv64_land hreg hsp ?_)
    rw [ht6]
    exact ult_one _
  | eq =>
    refine rv64_lands_compared ((hsltiu _).append (haddi _)) (rv64_land_scratch hreg hsp _ ?_)
    rw [hself, ht6]
    exact (BitVec.add_zero _).trans (ult_one _)
  | lt =>
    refine rv64_lands_compared (hslt _) (rv64_land hreg hsp ?_)
    rw [ht6]
    rfl
  | ge =>
    refine rv64_lands_compared ((hslt _).append hxori) (rv64_land_scratch hreg hsp _ ?_)
    rw [hself, ht6]
    exact truth_xor _
  | gt | le => exact rv64_lands_compared (haddi _) (rv64_land hreg hsp rfl)

/-- A comparison does what it says where `rv64Truth` is the truth value. -/
theorem rv64_cmp_lawful_iff (cond : Cond) (rn rm : Operand) : rv64Target.Lawful (.cmp cond rn rm) ↔ ∀ s : Rv64.State,
    rv64Truth (rv64Target.reg s rn) (rv64Target.reg s rm) cond =
      truth (cond.rel (rv64Target.reg s rn) (rv64Target.reg s rm)) := by
  have hleaves : rv64Target.Leaves (.cmp cond rn rm) fun v => update v rn (rv64Truth (v rn) (v rm) cond) :=
    rv64_cmp_run cond rn rm
  refine hleaves.lawful_iff.trans (forall_congr' fun s => ⟨fun h => ?_, fun h _ => by rw [h]; rfl⟩)
  have hval := congrFun (h trivial) rn
  rw [update_self] at hval
  exact hval.trans (update_self ..)

/-- All registers are zero. -/
theorem rv64_zeros (r : Operand) : rv64Target.reg (⟨fun _ => 0⟩ : Rv64.State) r = 0 := ite_self _

/-- Two registers have any contents. -/
theorem rv64_contents {rn rm : Operand} (h : rn ≠ rm) (x y : BitVec 64) :
    ∃ s : Rv64.State, rv64Target.reg s rn = x ∧ rv64Target.reg s rm = y := by
  refine ⟨(Rv64.State.set ⟨fun _ => 0⟩ (rv64Reg rm) y).set (rv64Reg rn) x, ?_, ?_⟩
  · rw [rv64_reg_set, update_self]
  · rw [rv64_reg_set, update_of_ne h.symm, rv64_reg_set, update_self]

theorem rv64Truth_eq (a b : BitVec 64) : rv64Truth a b .eq = truth (Cond.eq.rel a b) := by
  refine congrArg truth ?_
  have hzero : a - b = 0 ↔ a = b := BitVec.sub_eq_iff_eq_add.trans (by rw [BitVec.add_comm]; exact Iff.of_eq (congrArg _ (BitVec.add_zero b)))
  rw [Bool.eq_iff_iff, beq_iff_eq, hzero]
  exact beq_iff_eq.symm

theorem rv64Truth_same (a : BitVec 64) {cond : Cond} (h : cond = .lt ∨ cond = .ge ∨ cond = .gt) :
    rv64Truth a a cond = truth (cond.rel a a) := by
  have hlt : a.slt a = false := by simp [BitVec.slt]
  have hle : a.sle a = true := by simp [BitVec.sle]
  obtain rfl | rfl | rfl := h
  · rw [rv64Truth, BitVec.sub_self, Cond.rel, hlt]
    rfl
  · rw [rv64Truth, BitVec.sub_self, Cond.rel, hle]
    rfl
  · rw [rv64Truth, Cond.rel, hlt]
    rfl

/-- Which comparisons the back end can make of two registers. -/
def Rv64Compares (rn rm : Operand) : Cond → Prop
  | .eq => True
  | .ne | .le => False
  | .lt | .ge | .gt => rn = rm

/-- A comparison that is right for equal contents only. -/
theorem rv64_compares_same {cond : Cond} (rn rm : Operand) (h : cond = .lt ∨ cond = .ge ∨ cond = .gt) {x y : BitVec 64}
    (hxy : rv64Truth x y cond ≠ truth (cond.rel x y)) : rv64Target.Lawful (.cmp cond rn rm) ↔ rn = rm := by
  rw [rv64_cmp_lawful_iff]
  refine ⟨fun hall => ?_, fun heq s => by rw [heq]; exact rv64Truth_same _ h⟩
  by_contra hne
  obtain ⟨s, hx, hy⟩ := rv64_contents hne x y
  have := hall s
  rw [hx, hy] at this
  exact hxy this

/-- **The difference tells equal registers**, and the others only where there is nothing to tell: its sign is wrong
when it overflows, and the code for unequal tells equal. -/
theorem rv64_compares_iff (cond : Cond) (rn rm : Operand) :
    rv64Target.Lawful (.cmp cond rn rm) ↔ Rv64Compares rn rm cond := by
  have hnever : rv64Truth 0 0 cond ≠ truth (cond.rel 0 0) → ¬rv64Target.Lawful (.cmp cond rn rm) := fun hne h => by
    have hz := (rv64_cmp_lawful_iff cond rn rm).1 h ⟨fun _ => 0⟩
    rw [rv64_zeros, rv64_zeros] at hz
    exact hne hz
  cases cond with
  | eq => exact iff_of_true ((rv64_cmp_lawful_iff ..).2 fun s => rv64Truth_eq _ _) trivial
  | ne | le => exact iff_of_false (hnever (by decide)) id
  | lt => exact rv64_compares_same rn rm (.inl rfl) (x := BitVec.intMin 64) (y := 1) (by decide)
  | ge => exact rv64_compares_same rn rm (.inr (.inl rfl)) (x := BitVec.intMin 64) (y := 1) (by decide)
  | gt => exact rv64_compares_same rn rm (.inr (.inr rfl)) (x := 1) (y := 0) (by decide)

/-- When the code of a call does what the call says. -/
def Rv64Fits : Call → Prop
  | .cmp cond rn rm => Rv64Compares rn rm cond
  | _ => True

theorem rv64_lawful_iff (c : Call) : rv64Target.Lawful c ↔ Rv64Fits c := by
  cases c with
  | bin op rd rn rm => exact iff_of_true (rv64_bin op rd rn rm) trivial
  | shift op rd rn n => exact iff_of_true (rv64_shift op rd rn n) trivial
  | mov rd rn => exact iff_of_true (rv64_mov rd rn) trivial
  | cmp cond rn rm => exact rv64_compares_iff cond rn rm

end

end WuBuOS.CodeGen
