import WuBuOS.Lib.Bytes

/-!
# The machine code encoder

`jit/wubu_x86.c`: the bytes that a call of a `wx86_` function appends to the buffer, as long as there is room
for them.  `Wx86Call` has a constructor for each of these functions, and `Wx86Call.bytes` is what it emits.

`wx86_multi_nop` is not among them: it emits a run of fillers, not an instruction.
-/

namespace WuBuOS.Jit

/-! ## Registers and conditions -/

inductive Wx86Reg where
  | rax | rcx | rdx | rbx | rsp | rbp | rsi | rdi
  | r8 | r9 | r10 | r11 | r12 | r13 | r14 | r15
  deriving DecidableEq

def Wx86Reg.num : Wx86Reg → Nat
  | .rax => 0 | .rcx => 1 | .rdx => 2 | .rbx => 3 | .rsp => 4 | .rbp => 5 | .rsi => 6 | .rdi => 7
  | .r8 => 8 | .r9 => 9 | .r10 => 10 | .r11 => 11 | .r12 => 12 | .r13 => 13 | .r14 => 14 | .r15 => 15

def wx86RegName : Wx86Reg → String
  | .rax => "rax" | .rcx => "rcx" | .rdx => "rdx" | .rbx => "rbx"
  | .rsp => "rsp" | .rbp => "rbp" | .rsi => "rsi" | .rdi => "rdi"
  | .r8 => "r8" | .r9 => "r9" | .r10 => "r10" | .r11 => "r11"
  | .r12 => "r12" | .r13 => "r13" | .r14 => "r14" | .r15 => "r15"

inductive Wx86CC where
  | o | no | b | ae | e | ne | be | a | s | ns | l | ge | le | g
  deriving DecidableEq

def Wx86CC.num : Wx86CC → UInt8
  | .o => 0x0 | .no => 0x1 | .b => 0x2 | .ae => 0x3 | .e => 0x4 | .ne => 0x5 | .be => 0x6 | .a => 0x7
  | .s => 0x8 | .ns => 0x9 | .l => 0xC | .ge => 0xD | .le => 0xE | .g => 0xF

def wx86CcName : Wx86CC → String
  | .o => "o" | .no => "no" | .b => "b" | .ae => "ae" | .e => "e" | .ne => "ne" | .be => "be" | .a => "a"
  | .s => "s" | .ns => "ns" | .l => "l" | .ge => "ge" | .le => "le" | .g => "g"

/-- `reg_lo`. -/
def Wx86Reg.lo (r : Wx86Reg) : UInt8 := UInt8.ofNat (r.num % 8)

/-- `reg_hi`. -/
def Wx86Reg.hi (r : Wx86Reg) : Bool := 8 ≤ r.num

/-! ## Parts of an instruction -/

def wx86Rex (reg rm : Wx86Reg) (w : Bool) : UInt8 :=
  0x40 ||| (if w then 0x08 else 0) ||| (if reg.hi then 0x04 else 0) ||| (if rm.hi then 0x01 else 0)

/-- `wx86_emit_modrm`, of the low bits of two registers. -/
def modrm (mod reg rm : UInt8) : UInt8 := ((mod &&& 3) <<< 6) ||| (reg <<< 3) ||| rm

def wx86EmitModrm (mod : UInt8) (reg rm : Wx86Reg) : UInt8 := modrm mod reg.lo rm.lo

/-- `wx86_emit_sib`, for a scale of 1. -/
def wx86EmitSib (index base : Wx86Reg) : UInt8 := (index.lo <<< 3) ||| base.lo

def wx86EmitDword (d : BitVec 32) : List UInt8 := Bytes.le 4 d.toNat

def wx86EmitQword (q : BitVec 64) : List UInt8 :=
  wx86EmitDword (q.setWidth 32) ++ wx86EmitDword ((q >>> 32).setWidth 32)

def emitRexModrmRegReg (opcode : UInt8) (dst src : Wx86Reg) (srcIsRegField : Bool) : List UInt8 :=
  let regField := if srcIsRegField then src else dst
  let rmField := if srcIsRegField then dst else src
  [wx86Rex regField rmField true, opcode, wx86EmitModrm 3 regField rmField]

/-- What an instruction with a memory operand has behind its opcode; the same in each of them. -/
def emitMem (reg base : Wx86Reg) (disp : BitVec 32) : List UInt8 :=
  let sib := if base.lo = 4 ∨ base.lo = 12 then [wx86EmitSib .rsp base] else []
  if disp = 0 ∧ base.lo ≠ 5 then wx86EmitModrm 0 reg base :: sib
  else if -128 ≤ disp.toInt ∧ disp.toInt ≤ 127 then
    wx86EmitModrm 1 reg base :: (sib ++ [UInt8.ofNat (disp.toNat % 256)])
  else wx86EmitModrm 2 reg base :: (sib ++ wx86EmitDword disp)

/-- An instruction with an opcode extension in place of the register, and a 32-bit number. -/
def emitExt (opcode ext : UInt8) (dst : Wx86Reg) : List UInt8 :=
  [wx86Rex .rbx dst true, opcode, (0xC0 : UInt8) ||| (ext <<< 3) ||| dst.lo]

/-! ## Instructions -/

def wx86MovRegImm64 (dst : Wx86Reg) (imm : BitVec 64) : List UInt8 :=
  (0x48 ||| (if dst.hi then 0x01 else 0)) :: (0xB8 + dst.lo) :: wx86EmitQword imm

def wx86MovRegImm32 (dst : Wx86Reg) (imm : BitVec 32) : List UInt8 :=
  [wx86Rex .rax dst true, 0xC7, wx86EmitModrm 3 .rax dst] ++ wx86EmitDword imm

def wx86MovRegReg (dst src : Wx86Reg) : List UInt8 := emitRexModrmRegReg 0x89 dst src true

def wx86MovRegMem (dst base : Wx86Reg) (disp : BitVec 32) : List UInt8 :=
  [wx86Rex dst base true, 0x8B] ++ emitMem dst base disp

def wx86MovzxByteRegMem (dst base : Wx86Reg) (disp : BitVec 32) : List UInt8 :=
  [wx86Rex dst base true, 0x0F, 0xB6] ++ emitMem dst base disp

def wx86MovMemReg (base : Wx86Reg) (disp : BitVec 32) (src : Wx86Reg) : List UInt8 :=
  [wx86Rex src base true, 0x89] ++ emitMem src base disp

def wx86MovntiMemReg (base : Wx86Reg) (disp : BitVec 32) (src : Wx86Reg) : List UInt8 :=
  [wx86Rex src base true, 0x0F, 0xC3] ++ emitMem src base disp

def wx86AddRegReg (dst src : Wx86Reg) : List UInt8 := emitRexModrmRegReg 0x01 dst src true

def wx86AddRaxMem (base : Wx86Reg) (disp : BitVec 32) : List UInt8 :=
  [wx86Rex .rax base true, 0x03] ++ emitMem .rax base disp

def wx86AdcRegReg (dst src : Wx86Reg) : List UInt8 := emitRexModrmRegReg 0x11 dst src true

def wx86SbbRegReg (dst src : Wx86Reg) : List UInt8 := emitRexModrmRegReg 0x19 dst src true

def wx86Clc : List UInt8 := [0xF8]

def wx86Stc : List UInt8 := [0xF9]

def wx86AddRegImm32 (dst : Wx86Reg) (imm : BitVec 32) : List UInt8 :=
  [wx86Rex .rax dst true, 0x81, wx86EmitModrm 3 .rax dst] ++ wx86EmitDword imm

def wx86SubRegReg (dst src : Wx86Reg) : List UInt8 := emitRexModrmRegReg 0x29 dst src true

def wx86SubRegImm32 (dst : Wx86Reg) (imm : BitVec 32) : List UInt8 := emitExt 0x81 5 dst ++ wx86EmitDword imm

def wx86AndRegImm32 (dst : Wx86Reg) (imm : BitVec 32) : List UInt8 := emitExt 0x81 4 dst ++ wx86EmitDword imm

def wx86AndRegReg (dst src : Wx86Reg) : List UInt8 := emitRexModrmRegReg 0x21 dst src true

def wx86OrRegReg (dst src : Wx86Reg) : List UInt8 := emitRexModrmRegReg 0x09 dst src true

def wx86OrRegImm32 (dst : Wx86Reg) (imm : BitVec 32) : List UInt8 := emitExt 0x81 1 dst ++ wx86EmitDword imm

def wx86NotReg (dst : Wx86Reg) : List UInt8 := emitExt 0xF7 2 dst

def wx86LeaScaledIndex (dst base : Wx86Reg) (scale : UInt8) : List UInt8 :=
  [0x48 ||| (if dst.hi then 0x04 else 0) ||| (if base.hi then 0x02 else 0) ||| (if base.hi then 0x01 else 0),
    0x8D, (dst.lo <<< 3) ||| 0x04, (scale <<< 6) ||| (base.lo <<< 3) ||| base.lo]

def wx86ImulRegReg (dst src : Wx86Reg) : List UInt8 :=
  [wx86Rex dst src true, 0x0F, 0xAF, wx86EmitModrm 3 dst src]

def wx86ImulRegRegImm32 (dst src : Wx86Reg) (imm : BitVec 32) : List UInt8 :=
  [wx86Rex dst src true, 0x69, wx86EmitModrm 3 dst src] ++ wx86EmitDword imm

def wx86ImulRaxRm (rm : Wx86Reg) : List UInt8 :=
  [wx86Rex .rax rm true, 0xF7, (0xC0 : UInt8) ||| ((5 : UInt8) <<< 3) ||| rm.lo]

def wx86XorRegReg (dst src : Wx86Reg) : List UInt8 := emitRexModrmRegReg 0x31 dst src true

/-- For a high register the prefix is `REX.W` and `REX.R`; the comment has `REX.B`. -/
def wx86ZeroReg (r : Wx86Reg) : List UInt8 :=
  (if r.hi then [0x48 ||| 0x04] else []) ++ [0x31, modrm 3 r.lo r.lo]

def wx86CmpRegReg (a b : Wx86Reg) : List UInt8 := emitRexModrmRegReg 0x39 a b true

def wx86TestRegReg (a b : Wx86Reg) : List UInt8 := emitRexModrmRegReg 0x85 a b true

def wx86CmovccRegReg (cc : Wx86CC) (dst src : Wx86Reg) : List UInt8 :=
  [wx86Rex dst src true, 0x0F, 0x40 + cc.num, wx86EmitModrm 3 dst src]

def wx86CmpRegImm32 (dst : Wx86Reg) (imm : BitVec 32) : List UInt8 :=
  [wx86Rex .rdi dst true, 0x81, wx86EmitModrm 3 .rdi dst] ++ wx86EmitDword imm

def wx86LeaRegMem (dst base : Wx86Reg) (disp : BitVec 32) : List UInt8 :=
  [wx86Rex dst base true, 0x8D] ++ emitMem dst base disp

def wx86ShlRegImm8 (dst : Wx86Reg) (count : UInt8) : List UInt8 :=
  [wx86Rex .rsp dst true, 0xC1, wx86EmitModrm 3 .rsp dst, count]

def wx86ShrRegImm8 (dst : Wx86Reg) (count : UInt8) : List UInt8 :=
  [wx86Rex .rbp dst true, 0xC1, wx86EmitModrm 3 .rbp dst, count]

def wx86SarRegImm8 (dst : Wx86Reg) (count : UInt8) : List UInt8 :=
  [wx86Rex .rdi dst true, 0xC1, wx86EmitModrm 3 .rdi dst, count]

def wx86NegReg (dst : Wx86Reg) : List UInt8 := [wx86Rex .rbx dst true, 0xF7, wx86EmitModrm 3 .rbx dst]

def wx86Cqo : List UInt8 := [0x48, 0x99]

def wx86IdivReg (src : Wx86Reg) : List UInt8 := [wx86Rex .rdi src true, 0xF7, wx86EmitModrm 3 .rdi src]

def wx86Ret : List UInt8 := [0xC3]

/-- `wx86_jmp_rel32`, with the placeholder 0 or what `wx86_patch_rel32` has put there. -/
def wx86JmpRel32 (rel : BitVec 32) : List UInt8 := 0xE9 :: wx86EmitDword rel

def wx86JccRel32 (cc : Wx86CC) (rel : BitVec 32) : List UInt8 :=
  [0x0F, 0x80 ||| (cc.num &&& 0xF)] ++ wx86EmitDword rel

def wx86CallRel32 (rel : BitVec 32) : List UInt8 := 0xE8 :: wx86EmitDword rel

def wx86CallReg (reg : Wx86Reg) : List UInt8 := [wx86Rex .rdx reg true, 0xFF, wx86EmitModrm 3 .rdx reg]

def wx86PushReg (src : Wx86Reg) : List UInt8 := (if src.hi then [0x41] else []) ++ [0x50 + src.lo]

def wx86PopReg (dst : Wx86Reg) : List UInt8 := (if dst.hi then [0x41] else []) ++ [0x58 + dst.lo]

def wx86SubRspImm8 (imm : UInt8) : List UInt8 := [0x48, 0x83, 0xEC, imm]

def wx86AddRspImm8 (imm : UInt8) : List UInt8 := [0x48, 0x83, 0xC4, imm]

/-- `dst` is ignored. -/
def wx86SetccR8 (cc : Wx86CC) (_dst : Wx86Reg) : List UInt8 := [0x0F, 0x90 + cc.num, 0xC0]

def wx86JmpReg (reg : Wx86Reg) : List UInt8 :=
  [0x40 ||| (if reg.hi then 0x01 else 0), 0xFF, modrm 3 4 reg.lo]

/-! ## Calls -/

/-- A call of the encoder. -/
inductive Wx86Call where
  | movRegImm64 (dst : Wx86Reg) (imm : BitVec 64)
  | movRegImm32 (dst : Wx86Reg) (imm : BitVec 32)
  | movRegReg (dst src : Wx86Reg)
  | movRegMem (dst base : Wx86Reg) (disp : BitVec 32)
  | movzxByteRegMem (dst base : Wx86Reg) (disp : BitVec 32)
  | movMemReg (base : Wx86Reg) (disp : BitVec 32) (src : Wx86Reg)
  | movntiMemReg (base : Wx86Reg) (disp : BitVec 32) (src : Wx86Reg)
  | addRegReg (dst src : Wx86Reg)
  | addRaxMem (base : Wx86Reg) (disp : BitVec 32)
  | adcRegReg (dst src : Wx86Reg)
  | sbbRegReg (dst src : Wx86Reg)
  | clc
  | stc
  | addRegImm32 (dst : Wx86Reg) (imm : BitVec 32)
  | subRegReg (dst src : Wx86Reg)
  | subRegImm32 (dst : Wx86Reg) (imm : BitVec 32)
  | andRegImm32 (dst : Wx86Reg) (imm : BitVec 32)
  | andRegReg (dst src : Wx86Reg)
  | orRegReg (dst src : Wx86Reg)
  | orRegImm32 (dst : Wx86Reg) (imm : BitVec 32)
  | notReg (dst : Wx86Reg)
  | leaScaledIndex (dst base : Wx86Reg) (scale : UInt8)
  | imulRegReg (dst src : Wx86Reg)
  | imulRegRegImm32 (dst src : Wx86Reg) (imm : BitVec 32)
  | imulRaxRm (rm : Wx86Reg)
  | xorRegReg (dst src : Wx86Reg)
  | zeroReg (r : Wx86Reg)
  | cmpRegReg (a b : Wx86Reg)
  | testRegReg (a b : Wx86Reg)
  | cmovccRegReg (cc : Wx86CC) (dst src : Wx86Reg)
  | cmpRegImm32 (dst : Wx86Reg) (imm : BitVec 32)
  | leaRegMem (dst base : Wx86Reg) (disp : BitVec 32)
  | shlRegImm8 (dst : Wx86Reg) (count : UInt8)
  | shrRegImm8 (dst : Wx86Reg) (count : UInt8)
  | sarRegImm8 (dst : Wx86Reg) (count : UInt8)
  | negReg (dst : Wx86Reg)
  | cqo
  | idivReg (src : Wx86Reg)
  | ret
  | jmpRel32 (rel : BitVec 32)
  | jccRel32 (cc : Wx86CC) (rel : BitVec 32)
  | callRel32 (rel : BitVec 32)
  | callReg (reg : Wx86Reg)
  | pushReg (src : Wx86Reg)
  | popReg (dst : Wx86Reg)
  | subRspImm8 (imm : UInt8)
  | addRspImm8 (imm : UInt8)
  | setccR8 (cc : Wx86CC) (dst : Wx86Reg)
  | jmpReg (reg : Wx86Reg)

def Wx86Call.bytes : Wx86Call → List UInt8
  | .movRegImm64 dst imm => wx86MovRegImm64 dst imm
  | .movRegImm32 dst imm => wx86MovRegImm32 dst imm
  | .movRegReg dst src => wx86MovRegReg dst src
  | .movRegMem dst base disp => wx86MovRegMem dst base disp
  | .movzxByteRegMem dst base disp => wx86MovzxByteRegMem dst base disp
  | .movMemReg base disp src => wx86MovMemReg base disp src
  | .movntiMemReg base disp src => wx86MovntiMemReg base disp src
  | .addRegReg dst src => wx86AddRegReg dst src
  | .addRaxMem base disp => wx86AddRaxMem base disp
  | .adcRegReg dst src => wx86AdcRegReg dst src
  | .sbbRegReg dst src => wx86SbbRegReg dst src
  | .clc => wx86Clc
  | .stc => wx86Stc
  | .addRegImm32 dst imm => wx86AddRegImm32 dst imm
  | .subRegReg dst src => wx86SubRegReg dst src
  | .subRegImm32 dst imm => wx86SubRegImm32 dst imm
  | .andRegImm32 dst imm => wx86AndRegImm32 dst imm
  | .andRegReg dst src => wx86AndRegReg dst src
  | .orRegReg dst src => wx86OrRegReg dst src
  | .orRegImm32 dst imm => wx86OrRegImm32 dst imm
  | .notReg dst => wx86NotReg dst
  | .leaScaledIndex dst base scale => wx86LeaScaledIndex dst base scale
  | .imulRegReg dst src => wx86ImulRegReg dst src
  | .imulRegRegImm32 dst src imm => wx86ImulRegRegImm32 dst src imm
  | .imulRaxRm rm => wx86ImulRaxRm rm
  | .xorRegReg dst src => wx86XorRegReg dst src
  | .zeroReg r => wx86ZeroReg r
  | .cmpRegReg a b => wx86CmpRegReg a b
  | .testRegReg a b => wx86TestRegReg a b
  | .cmovccRegReg cc dst src => wx86CmovccRegReg cc dst src
  | .cmpRegImm32 dst imm => wx86CmpRegImm32 dst imm
  | .leaRegMem dst base disp => wx86LeaRegMem dst base disp
  | .shlRegImm8 dst count => wx86ShlRegImm8 dst count
  | .shrRegImm8 dst count => wx86ShrRegImm8 dst count
  | .sarRegImm8 dst count => wx86SarRegImm8 dst count
  | .negReg dst => wx86NegReg dst
  | .cqo => wx86Cqo
  | .idivReg src => wx86IdivReg src
  | .ret => wx86Ret
  | .jmpRel32 rel => wx86JmpRel32 rel
  | .jccRel32 cc rel => wx86JccRel32 cc rel
  | .callRel32 rel => wx86CallRel32 rel
  | .callReg reg => wx86CallReg reg
  | .pushReg src => wx86PushReg src
  | .popReg dst => wx86PopReg dst
  | .subRspImm8 imm => wx86SubRspImm8 imm
  | .addRspImm8 imm => wx86AddRspImm8 imm
  | .setccR8 cc dst => wx86SetccR8 cc dst
  | .jmpReg reg => wx86JmpReg reg

end WuBuOS.Jit
