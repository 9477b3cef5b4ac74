import WuBuOS.Jit.CodeGen
import WuBuOS.Lib.A64

/-!
# The ARM64 back end

`jit/jit_codegen_arm64.c`, and the functions of the encoder `jit/wubu_arm64.c` that it uses.  Registers and conditions
go over as they are; a remainder is computed in `X10`.

Each word of the encoder is a sum of its fields (`arm64_three`), so that it decodes to the instruction that is meant.
All calls but a remainder leave what they should; a remainder leaves `arm64Mod`, and `arm64_rems_iff` says for which
registers that is the remainder.
-/

namespace WuBuOS.CodeGen

open Function (update update_of_ne update_self update_idem)

/-! ## The encoder -/

/-- `WArm64Reg`: `WREG_X0` to `WREG_X31`. -/
abbrev WArm64Reg := Fin 32

abbrev wregX10 : WArm64Reg := 10
abbrev wregFp : WArm64Reg := 29
abbrev wregLr : WArm64Reg := 30
abbrev wregSp : WArm64Reg := 31
abbrev wregXzr : WArm64Reg := 31

def warm64EmitWord (w : Nat) : List UInt8 := Bytes.le 4 w

/-- An instruction with three registers and the bit `sf`. -/
def warm64ThreeReg (ins : Nat) (rd rn rm : WArm64Reg) (sf : Nat) : List UInt8 :=
  warm64EmitWord (ins ||| (sf &&& 1) <<< 31 ||| (rm.val &&& 0x1F) <<< 16 ||| (rn.val &&& 0x1F) <<< 5 |||
    (rd.val &&& 0x1F))

def warm64AddReg : WArm64Reg → WArm64Reg → WArm64Reg → Nat → List UInt8 := warm64ThreeReg 0x8B000000

def warm64SubReg : WArm64Reg → WArm64Reg → WArm64Reg → Nat → List UInt8 := warm64ThreeReg 0xCB000000

def warm64AndReg : WArm64Reg → WArm64Reg → WArm64Reg → Nat → List UInt8 := warm64ThreeReg 0x8A000000

def warm64OrrReg : WArm64Reg → WArm64Reg → WArm64Reg → Nat → List UInt8 := warm64ThreeReg 0xAA000000

def warm64EorReg : WArm64Reg → WArm64Reg → WArm64Reg → Nat → List UInt8 := warm64ThreeReg 0xCA000000

def warm64MulReg (rd rn rm : WArm64Reg) : List UInt8 :=
  warm64EmitWord (0x9B007C00 ||| (rm.val &&& 0x1F) <<< 16 ||| (rn.val &&& 0x1F) <<< 5 ||| (rd.val &&& 0x1F))

def warm64SdivReg (rd rn rm : WArm64Reg) : List UInt8 :=
  warm64EmitWord (0x9AC00C00 ||| (rm.val &&& 0x1F) <<< 16 ||| (rn.val &&& 0x1F) <<< 5 ||| (rd.val &&& 0x1F))

def warm64MovReg (rd rn : WArm64Reg) : List UInt8 :=
  warm64EmitWord (0xAA0003E0 ||| (rn.val &&& 0x1F) <<< 16 ||| (rd.val &&& 0x1F))

/-- An `int` masked with `0x3F`. -/
def low6 (x : Int) : Nat := (x % 64).toNat

/-- A move of a bit field. -/
def warm64Bfm (ins : Nat) (rd rn : WArm64Reg) (immr imms : Int) (sf : Nat) : List UInt8 :=
  warm64EmitWord (ins ||| (sf &&& 1) <<< 31 ||| (sf &&& 1) <<< 22 ||| low6 immr <<< 16 ||| low6 imms <<< 10 |||
    (rn.val &&& 0x1F) <<< 5 ||| (rd.val &&& 0x1F))

def warm64LslImm (rd rn : WArm64Reg) (shift : UInt8) (sf : Nat) : List UInt8 :=
  let bits : Int := if sf ≠ 0 then 64 else 32
  warm64Bfm 0xD3400000 rd rn ((bits - shift.toNat).tmod bits) (bits - 1 - shift.toNat) sf

def warm64LsrImm (rd rn : WArm64Reg) (shift : UInt8) (sf : Nat) : List UInt8 :=
  let bits : Int := if sf ≠ 0 then 64 else 32
  warm64Bfm 0xD3400000 rd rn shift.toNat (bits - 1) sf

def warm64AsrImm (rd rn : WArm64Reg) (shift : UInt8) (sf : Nat) : List UInt8 :=
  warm64Bfm 0x93400000 rd rn shift.toNat (if sf ≠ 0 then 63 else 31) sf

def warm64CmpReg (rn rm : WArm64Reg) (sf : Nat) : List UInt8 :=
  warm64EmitWord (0xEB00001F ||| (sf &&& 1) <<< 31 ||| (rm.val &&& 0x1F) <<< 16 ||| (rn.val &&& 0x1F) <<< 5)

/-- `WArm64CC` has the numbers of `CGCC`. -/
def warm64Cset (rd : WArm64Reg) (cc : Nat) : List UInt8 :=
  warm64EmitWord (0x9A9F07E0 ||| ((cc ^^^ 1) &&& 0xF) <<< 12 ||| (rd.val &&& 0x1F))

/-! ## The table -/

def cgToArm64 (r : CGReg) : WArm64Reg :=
  if r ≤ 15 then r.castLE (by decide)
  else if r = cgRegSp then wregSp
  else if r = cgRegFp then wregFp
  else if r = cgRegLr then wregLr
  else if r = cgRegXzr then wregXzr
  else 0

def cgToArm64cc (cond : CGCC) : Nat := cond.num

def arm64AddReg (rd rn rm : CGReg) : List UInt8 := warm64AddReg (cgToArm64 rd) (cgToArm64 rn) (cgToArm64 rm) 1

def arm64SubReg (rd rn rm : CGReg) : List UInt8 := warm64SubReg (cgToArm64 rd) (cgToArm64 rn) (cgToArm64 rm) 1

def arm64MulReg (rd rn rm : CGReg) : List UInt8 := warm64MulReg (cgToArm64 rd) (cgToArm64 rn) (cgToArm64 rm)

def arm64DivReg (rd rn rm : CGReg) : List UInt8 := warm64SdivReg (cgToArm64 rd) (cgToArm64 rn) (cgToArm64 rm)

def arm64ModReg (rd rn rm : CGReg) : List UInt8 :=
  warm64SdivReg wregX10 (cgToArm64 rn) (cgToArm64 rm) ++ (warm64MulReg wregX10 wregX10 (cgToArm64 rm) ++
    warm64SubReg (cgToArm64 rd) (cgToArm64 rn) wregX10 1)

def arm64AndReg (rd rn rm : CGReg) : List UInt8 := warm64AndReg (cgToArm64 rd) (cgToArm64 rn) (cgToArm64 rm) 1

def arm64OrrReg (rd rn rm : CGReg) : List UInt8 := warm64OrrReg (cgToArm64 rd) (cgToArm64 rn) (cgToArm64 rm) 1

def arm64EorReg (rd rn rm : CGReg) : List UInt8 := warm64EorReg (cgToArm64 rd) (cgToArm64 rn) (cgToArm64 rm) 1

def arm64LslImm (rd rn : CGReg) (shift : UInt8) : List UInt8 := warm64LslImm (cgToArm64 rd) (cgToArm64 rn) shift 1

def arm64LsrImm (rd rn : CGReg) (shift : UInt8) : List UInt8 := warm64LsrImm (cgToArm64 rd) (cgToArm64 rn) shift 1

def arm64AsrImm (rd rn : CGReg) (shift : UInt8) : List UInt8 := warm64AsrImm (cgToArm64 rd) (cgToArm64 rn) shift 1

def arm64MovReg (rd rn : CGReg) : List UInt8 := warm64MovReg (cgToArm64 rd) (cgToArm64 rn)

def arm64CmpReg (rn rm : CGReg) : List UInt8 := warm64CmpReg (cgToArm64 rn) (cgToArm64 rm) 1

def arm64Cset (rd : CGReg) (cond : CGCC) : List UInt8 := warm64Cset (cgToArm64 rd) (cgToArm64cc cond)

def arm64CmpRegCc (rn rm : CGReg) (cond : CGCC) : List UInt8 := arm64CmpReg rn rm ++ arm64Cset rn cond

def arm64Vtable : CodeGenVTable where
  addReg := arm64AddReg
  subReg := arm64SubReg
  mulReg := arm64MulReg
  divReg := arm64DivReg
  modReg := arm64ModReg
  andReg := arm64AndReg
  orrReg := arm64OrrReg
  eorReg := arm64EorReg
  lslImm := arm64LslImm
  lsrImm := arm64LsrImm
  asrImm := arm64AsrImm
  movReg := arm64MovReg
  cmpRegCc := arm64CmpRegCc

/-- Where a neutral register is. -/
def arm64Reg (r : Operand) : A64.Reg := cgToArm64 r.cg

def arm64Target : Target where
  State := A64.State
  vt := arm64Vtable
  exec := A64.exec
  reg s r := s.get (arm64Reg r)
  sp s := s.sp

/-! ## What the encoder's words mean -/

open WordCode

/-- A word with three registers. -/
theorem arm64_three {ins w : Nat} (hins : ins = w) (rd rn rm : WArm64Reg) (hm : w / 2 ^ 16 % 2 ^ 5 = 0)
    (hn : w / 2 ^ 5 % 2 ^ 5 = 0) (hd : w % 2 ^ 5 = 0) :
    ins ||| (rm.val &&& 0x1F) <<< 16 ||| (rn.val &&& 0x1F) <<< 5 ||| (rd.val &&& 0x1F) =
      w + rm.val * 2 ^ 16 + rn.val * 2 ^ 5 + rd.val := by
  rw [maskReg, maskReg, maskReg, hins, or_shift (n := 5) hm rm.isLt, or_shift (n := 5) (by omega) rn.isLt,
    or_low (n := 5) (by omega) rd.isLt]

theorem arm64_encodes_alu (ins op : Nat) {o : A64.Alu} (rd rn rm : WArm64Reg)
    (hins : ins ||| (1 &&& 1) <<< 31 = op * 2 ^ 21) (ho : A64.aluOf op = some o) (hop : op < 2 ^ 11)
    (hne : op ≠ 0x4D8 ∧ op ≠ 0x4D6 ∧ op / 2 ≠ 0x34D ∧ op / 2 ≠ 0x24D ∧ op ≠ 0x4D4) :
    A64.Encodes (warm64ThreeReg ins rd rn rm 1) [.alu o rd rn rm] := by
  rw [warm64ThreeReg, arm64_three hins rd rn rm (by omega) (by omega) (by omega)]
  exact A64.encodes_alu rm.isLt rn.isLt rd.isLt ho hop hne

theorem arm64_encodes_mul (rd rn rm : WArm64Reg) : A64.Encodes (warm64MulReg rd rn rm) [.madd rd rn rm 31] := by
  rw [warm64MulReg, arm64_three rfl rd rn rm (by decide) (by decide) (by decide)]
  have henc := A64.encodes_madd rm.isLt rn.isLt rd.isLt (show 31 < 32 by decide)
  rw [show 0x4D8 * 2 ^ 21 + rm.val * 2 ^ 16 + 31 * 2 ^ 10 = 0x9B007C00 + rm.val * 2 ^ 16 by omega] at henc
  exact henc

theorem arm64_encodes_sdiv (rd rn rm : WArm64Reg) : A64.Encodes (warm64SdivReg rd rn rm) [.sdiv rd rn rm] := by
  rw [warm64SdivReg, arm64_three rfl rd rn rm (by decide) (by decide) (by decide)]
  have henc := A64.encodes_sdiv rm.isLt rn.isLt rd.isLt
  rw [show 0x4D6 * 2 ^ 21 + rm.val * 2 ^ 16 + 3 * 2 ^ 10 = 0x9AC00C00 + rm.val * 2 ^ 16 by omega] at henc
  exact henc

/-- A move is an `orr` with the zero register. -/
theorem arm64_encodes_mov (rd rn : WArm64Reg) : A64.Encodes (warm64MovReg rd rn) [.alu .orr rd 31 rn] := by
  have hword : 0xAA0003E0 ||| (rn.val &&& 0x1F) <<< 16 ||| (rd.val &&& 0x1F) =
      0x550 * 2 ^ 21 + rn.val * 2 ^ 16 + 31 * 2 ^ 5 + rd.val := by
    rw [maskReg, maskReg, or_shift (n := 5) (by decide) rn.isLt, or_low (n := 5) (by omega) rd.isLt]
    omega
  rw [warm64MovReg, hword]
  exact A64.encodes_alu rn.isLt (show 31 < 32 by decide) rd.isLt rfl (by decide) (by decide)

/-- A comparison is a difference for the zero register. -/
theorem arm64_encodes_cmp (rn rm : WArm64Reg) : A64.Encodes (warm64CmpReg rn rm 1) [.alu .subs 31 rn rm] := by
  have hword : 0xEB00001F ||| (1 &&& 1) <<< 31 ||| (rm.val &&& 0x1F) <<< 16 ||| (rn.val &&& 0x1F) <<< 5 =
      0x758 * 2 ^ 21 + rm.val * 2 ^ 16 + rn.val * 2 ^ 5 + 31 := by
    have hins : 0xEB00001F ||| (1 &&& 1) <<< 31 = 0xEB00001F := by decide
    rw [maskReg, maskReg, hins, or_shift (n := 5) (by decide) rm.isLt, or_shift (n := 5) (by omega) rn.isLt]
    omega
  rw [warm64CmpReg, hword]
  exact A64.encodes_alu rm.isLt rn.isLt (show 31 < 32 by decide) rfl (by decide) (by decide)

theorem arm64_encodes_cset (rd : WArm64Reg) (cond : CGCC) :
    A64.Encodes (warm64Cset rd cond.num) [.csinc rd 31 31 (cond.num ^^^ 1)] := by
  have hcc : (cond.num ^^^ 1) &&& 0xF = cond.num ^^^ 1 ∧ cond.num ^^^ 1 < 16 := by cases cond <;> decide
  have hword : 0x9A9F07E0 ||| ((cond.num ^^^ 1) &&& 0xF) <<< 12 ||| (rd.val &&& 0x1F) =
      0x4D4 * 2 ^ 21 + 31 * 2 ^ 16 + ((cond.num ^^^ 1) * 4 + 1) * 2 ^ 10 + 31 * 2 ^ 5 + rd.val := by
    rw [maskReg, hcc.1, or_shift (n := 4) (by decide) hcc.2, or_low (n := 5) (by omega) rd.isLt]
    omega
  rw [warm64Cset, hword]
  exact A64.encodes_csinc (show 31 < 32 by decide) (show 31 < 32 by decide) rd.isLt hcc.2

theorem arm64_encodes_bfm (signed : Bool) (rd rn : WArm64Reg) {immr imms : Int} {r q : Nat} (hr : low6 immr = r)
    (hq : low6 imms = q) (hr6 : r < 64) (hq6 : q < 64) :
    A64.Encodes (warm64Bfm (if signed then 0x93400000 else 0xD3400000) rd rn immr imms 1) [.bfm signed rd rn r q] := by
  have hword : (if signed then 0x93400000 else 0xD3400000) ||| (1 &&& 1) <<< 31 ||| (1 &&& 1) <<< 22 ||| low6 immr <<< 16 |||
      low6 imms <<< 10 ||| (rn.val &&& 0x1F) <<< 5 ||| (rd.val &&& 0x1F) =
        (if signed then 0x24D else 0x34D) * 2 ^ 22 + r * 2 ^ 16 + q * 2 ^ 10 + rn.val * 2 ^ 5 + rd.val := by
    have hins : (if signed then 0x93400000 else 0xD3400000) ||| (1 &&& 1) <<< 31 ||| (1 &&& 1) <<< 22 =
        (if signed then 0x24D else 0x34D) * 2 ^ 22 := by
      cases signed <;> decide
    rw [maskReg, maskReg, hr, hq, hins, or_shift (n := 6) (by omega) hr6, or_shift (n := 6) (by omega) hq6,
      or_shift (n := 5) (by omega) rn.isLt, or_low (n := 5) (by omega) rd.isLt]
  rw [warm64Bfm, hword]
  exact A64.encodes_bfm signed hr6 hq6 rn.isLt rd.isLt

/-- The numbers of a shift. -/
theorem low6_shift (n : Fin 64) : low6 ((64 - ((UInt8.ofNat n).toNat : Int)).tmod 64) = (64 - n) % 64 ∧
    low6 (64 - 1 - ((UInt8.ofNat n).toNat : Int)) = 63 - n ∧ low6 ((UInt8.ofNat n).toNat : Int) = n := by
  revert n
  decide

/-! ## The law -/

section

variable {s : A64.State} {c : Call}

theorem arm64Reg_inj {r r' : Operand} (h : arm64Reg r = arm64Reg r') : r = r' := by
  revert r r'
  decide

theorem arm64Reg_ne (r : Operand) : arm64Reg r ≠ 31 := by
  revert r
  decide

theorem arm64_reg_set (s : A64.State) (d : Operand) (v : BitVec 64) :
    arm64Target.reg (s.set (arm64Reg d) v) = update (arm64Target.reg s) d v := by
  funext r
  by_cases h : r = d
  · rw [h, update_self]
    exact A64.get_set_self (arm64Reg_ne d)
  · rw [update_of_ne h]
    exact A64.get_set_of_ne fun he => h (arm64Reg_inj he)

/-- A single instruction that sets the register to the result. -/
theorem arm64_does {i : A64.Instr} (henc : A64.Encodes (c.code arm64Vtable) [i])
    (hi : A64.step s i = some (s.set (arm64Reg c.dst) (c.result (arm64Target.reg s)))) : arm64Target.Does c s  :=
  ⟨_, (henc.exec_one s).trans hi, A64.set_sp s _ _, arm64_reg_set s c.dst _⟩

/-- The operations that are one instruction. -/
theorem arm64_bin {op : BinOp} (hop : op ≠ .mod) (rd rn rm : Operand) : arm64Target.Lawful (.bin op rd rn rm) := by
  intro s _
  cases op with
  | add => exact arm64_does (arm64_encodes_alu 0x8B000000 0x458 _ _ _ (by decide) rfl (by decide) (by decide)) rfl
  | sub => exact arm64_does (arm64_encodes_alu 0xCB000000 0x658 _ _ _ (by decide) rfl (by decide) (by decide)) rfl
  | and => exact arm64_does (arm64_encodes_alu 0x8A000000 0x450 _ _ _ (by decide) rfl (by decide) (by decide)) rfl
  | orr => exact arm64_does (arm64_encodes_alu 0xAA000000 0x550 _ _ _ (by decide) rfl (by decide) (by decide)) rfl
  | eor => exact arm64_does (arm64_encodes_alu 0xCA000000 0x650 _ _ _ (by decide) rfl (by decide) (by decide)) rfl
  | mul =>
    refine arm64_does (arm64_encodes_mul _ _ _) ?_
    exact congrArg (fun v => some (s.set (arm64Reg rd) v)) (BitVec.zero_add _)
  | div => exact arm64_does (arm64_encodes_sdiv _ _ _) rfl
  | mod => exact absurd rfl hop

theorem arm64_mov (rd rn : Operand) : arm64Target.Lawful (.mov rd rn) := fun s _ => by
  refine arm64_does (arm64_encodes_mov _ _) ?_
  exact congrArg (fun v => some (s.set (arm64Reg rd) v)) (BitVec.zero_or)

theorem arm64_shift (op : ShiftOp) (rd rn : Operand) (n : Fin 64) : arm64Target.Lawful (.shift op rd rn n) := by
  intro s _
  have hn := n.isLt
  obtain ⟨hmod, hsub, hself⟩ := low6_shift n
  have hset {v w : BitVec 64} (h : v = w) : some (s.set (arm64Reg rd) v) = some (s.set (arm64Reg rd) w) := by rw [h]
  cases op with
  | lsl =>
    refine arm64_does (arm64_encodes_bfm false _ _ hmod hsub (by omega) (by omega)) ?_
    exact hset (A64.moveField_lsl _ hn)
  | lsr =>
    refine arm64_does (arm64_encodes_bfm false _ _ hself (show low6 (64 - 1) = 63 by decide) hn (by decide)) ?_
    exact hset (A64.moveField_lsr _ _ hn)
  | asr =>
    refine arm64_does (arm64_encodes_bfm true _ _ hself (show low6 63 = 63 by decide) hn (by decide)) ?_
    exact hset (A64.moveField_asr _ _ hn)

/-- The condition of a `cset` is inverted. -/
theorem arm64_holds (cond : Cond) (a b : BitVec 64) : (A64.subFlags a b).holds (cond.cc.num ^^^ 1) = !cond.rel a b := by
  obtain ⟨hz, hlt, hgt⟩ := A64.holds_subFlags a b
  have hinv : ∀ k < 7, _ := fun k hk => A64.holds_inverted (A64.subFlags a b) (k := k) hk
  cases cond with
  | eq => exact (hinv 0 (by decide)).trans (congrArg _ hz)
  | ne => exact hz.trans (Bool.not_not _).symm
  | lt => exact (Bool.not_not _).symm.trans (congrArg _ ((hinv 5 (by decide)).symm.trans hlt))
  | ge => exact hlt.trans ((Bool.not_not _).symm.trans (congrArg _ (BitVec.sle_eq_not_slt ..).symm))
  | gt => exact (hinv 6 (by decide)).trans (congrArg _ hgt)
  | le => exact hgt.trans ((Bool.not_not _).symm.trans (congrArg _ (BitVec.sle_eq_not_slt ..).symm))

theorem arm64_cmp (cond : Cond) (rn rm : Operand) : arm64Target.Lawful (.cmp cond rn rm) := by
  intro s _
  have henc := (arm64_encodes_cmp (arm64Reg rn) (arm64Reg rm)).append (arm64_encodes_cset (arm64Reg rn) cond.cc)
  let u : A64.State := { s with flags := A64.subFlags (arm64Target.reg s rn) (arm64Target.reg s rm) }
  refine ⟨u.set (arm64Reg rn) (truth (cond.rel (arm64Target.reg s rn) (arm64Target.reg s rm))),
    (henc.exec s).trans ?_, A64.set_sp u _ _, arm64_reg_set u rn _⟩
  show some (u.set (arm64Reg rn) (if (A64.subFlags (arm64Target.reg s rn) (arm64Target.reg s rm)).holds (cond.cc.num ^^^ 1)
    then 0 else 0 + 1)) = _
  rw [arm64_holds]
  generalize cond.rel (arm64Target.reg s rn) (arm64Target.reg s rm) = b
  cases b <;> rfl

/-! ## Remainders -/

/-- What is left in `CG_REG_10` before the subtraction. -/
def arm64Product (v : Operand → BitVec 64) (rn rm : Operand) : BitVec 64 :=
  (v rn).sdiv (v rm) * update v 10 ((v rn).sdiv (v rm)) rm

/-- The registers after a remainder. -/
def arm64Mod (v : Operand → BitVec 64) (rd rn rm : Operand) : Operand → BitVec 64 :=
  let w := update v 10 (arm64Product v rn rm)
  update w rd (w rn - w 10)

/-- **A remainder** leaves `arm64Mod`. -/
theorem arm64_mod_leaves (rd rn rm : Operand) :
    arm64Target.Leaves (.bin .mod rd rn rm) fun v => arm64Mod v rd rn rm := by
  intro s
  have henc := (arm64_encodes_sdiv wregX10 (arm64Reg rn) (arm64Reg rm)).append
    ((arm64_encodes_mul wregX10 wregX10 (arm64Reg rm)).append
      (arm64_encodes_alu 0xCB000000 0x658 (arm64Reg rd) (arm64Reg rn) wregX10 (by decide) rfl (by decide)
        (by decide)))
  let q := (arm64Target.reg s rn).sdiv (arm64Target.reg s rm)
  let s1 := s.set (arm64Reg 10) q
  let s2 := s1.set (arm64Reg 10) (0 + arm64Target.reg s1 10 * arm64Target.reg s1 rm)
  have h1 : arm64Target.reg s1 = update (arm64Target.reg s) 10 q := arm64_reg_set s 10 q
  have h2 : arm64Target.reg s2 = update (arm64Target.reg s) 10 (arm64Product (arm64Target.reg s) rn rm) := by
    refine (arm64_reg_set s1 10 _).trans ?_
    rw [h1, update_idem, update_self]
    exact congrArg _ (BitVec.zero_add _)
  refine ⟨s2.set (arm64Reg rd) (arm64Target.reg s2 rn - arm64Target.reg s2 10), henc.exec s, ?_, ?_⟩
  · exact (A64.set_sp ..).trans ((A64.set_sp ..).trans (A64.set_sp ..))
  · exact (arm64_reg_set s2 rd _).trans (by rw [h2]; rfl)

/-- `CG_REG_10` is 3, and the others are 6. -/
def arm64Probe (r : Operand) : BitVec 64 := if r = 10 then 3 else 6

theorem arm64_probe : ∃ s, arm64Target.reg s = arm64Probe := by
  refine ⟨(⟨fun r => if r = 10 then 3 else 6, 0, ⟨false, false, false, false⟩⟩ : A64.State), funext fun r => ?_⟩
  revert r
  decide

/-- What is left in `CG_REG_10`, by which operands it is. -/
theorem arm64Product_probe (rn rm : Operand) :
    arm64Product arm64Probe rn rm = if rn = 10 then if rm = 10 then 1 else 0 else if rm = 10 then 4 else 6 := by
  by_cases hn : rn = 10 <;> by_cases hm : rm = 10 <;> simp [arm64Product, arm64Probe, hn, hm]

/-- Which remainders the back end can compute: those whose register is `CG_REG_10`, unless it is one operand and not
the other. -/
def Arm64Rems (rd rn rm : Operand) : Prop := rd = 10 ∧ (rn = 10 ↔ rm = 10)

/-- A remainder for `CG_REG_10`. -/
theorem arm64Mod_rem (v : Operand → BitVec 64) {rn rm : Operand} (h : rn = 10 ↔ rm = 10) :
    arm64Mod v 10 rn rm = update v 10 ((v rn).srem (v rm)) := by
  unfold arm64Mod
  rw [update_idem, update_self]
  refine congrArg (update v 10) ?_
  by_cases hn : rn = 10
  · obtain rfl := hn
    obtain rfl := h.1 rfl
    rw [update_self, BitVec.sub_self, BitVec.srem_self]
  · have hm : rm ≠ 10 := fun hm => hn (h.2 hm)
    rw [update_of_ne hn, arm64Product, update_of_ne hm]
    exact A64.sub_sdiv_mul _ _

/-- The contents tell all the other remainders. -/
theorem arm64Mod_probe {rd rn rm : Operand}
    (h : arm64Mod arm64Probe rd rn rm = update arm64Probe rd ((arm64Probe rn).srem (arm64Probe rm))) :
    Arm64Rems rd rn rm := by
  have hprod := arm64Product_probe rn rm
  have hten := congrFun h 10
  by_cases hrd : rd = 10
  · obtain rfl := hrd
    rw [arm64Mod, update_self, update_self, update_self, hprod] at hten
    refine ⟨rfl, ?_⟩
    by_cases hn : rn = 10 <;> by_cases hm : rm = 10 <;> simp_all [arm64Probe]
  · -- `CG_REG_10` does not keep its 3
    rw [arm64Mod, update_of_ne (Ne.symm hrd), update_self, update_of_ne (Ne.symm hrd), hprod] at hten
    split at hten <;> split at hten <;> exact absurd hten (by decide)

theorem arm64_rems_iff (rd rn rm : Operand) : arm64Target.Lawful (.bin .mod rd rn rm) ↔ Arm64Rems rd rn rm := by
  refine (arm64_mod_leaves rd rn rm).lawful_iff.trans ⟨fun h => ?_, ?_⟩
  · obtain ⟨s, hs⟩ := arm64_probe
    have hne : ∀ r, arm64Probe r ≠ 0 ∧ arm64Probe r ≠ -1 := by decide
    have hrun := h s
    rw [hs] at hrun
    exact arm64Mod_probe (hrun ⟨(hne rm).1, fun hand => (hne rm).2 hand.2⟩)
  · rintro ⟨rfl, heq⟩ s -
    exact arm64Mod_rem _ heq

/-- When the code of a call does what the call says. -/
def Arm64Fits : Call → Prop
  | .bin .mod rd rn rm => Arm64Rems rd rn rm
  | _ => True

theorem arm64_lawful_iff (c : Call) : arm64Target.Lawful c ↔ Arm64Fits c := by
  cases c with
  | bin op rd rn rm =>
    cases op with
    | mod => exact arm64_rems_iff rd rn rm
    | add | sub | mul | div | and | orr | eor => exact iff_of_true (arm64_bin (by decide) rd rn rm) trivial
  | shift op rd rn n => exact iff_of_true (arm64_shift op rd rn n) trivial
  | mov rd rn => exact iff_of_true (arm64_mov rd rn) trivial
  | cmp cond rn rm => exact iff_of_true (arm64_cmp cond rn rm) trivial

end

end WuBuOS.CodeGen
