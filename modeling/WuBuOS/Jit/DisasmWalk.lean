import WuBuOS.Jit.Disasm

/-!
# What the disassembler can follow

`Wx86Call.mnemonic` and `Wx86Call.operands` say what an instruction is called, and `Reports` that this is what
the disassembler says of it.  `Wx86Call.Readable` are the calls whose instructions it knows: with registers
and numbers only, and without a prefix where none is expected.  An instruction of any other form is taken for
another one, or for a byte (`read_other`), whatever comes behind it.

`disasm_follows` puts the instructions together.
-/

namespace WuBuOS.Jit

/-! ## What is to be reported -/

def Wx86Call.mnemonic : Wx86Call → String
  | .movRegImm64 .. | .movRegImm32 .. | .movRegReg .. | .movRegMem .. | .movMemReg .. => "mov"
  | .movzxByteRegMem .. => "movzx"
  | .movntiMemReg .. => "movnti"
  | .addRegReg .. | .addRaxMem .. | .addRegImm32 .. | .addRspImm8 _ => "add"
  | .adcRegReg .. => "adc"
  | .sbbRegReg .. => "sbb"
  | .clc => "clc"
  | .stc => "stc"
  | .subRegReg .. | .subRegImm32 .. | .subRspImm8 _ => "sub"
  | .andRegImm32 .. | .andRegReg .. => "and"
  | .orRegReg .. | .orRegImm32 .. => "or"
  | .notReg _ => "not"
  | .leaScaledIndex .. | .leaRegMem .. => "lea"
  | .imulRegReg .. | .imulRegRegImm32 .. | .imulRaxRm _ => "imul"
  | .xorRegReg .. | .zeroReg _ => "xor"
  | .cmpRegReg .. | .cmpRegImm32 .. => "cmp"
  | .testRegReg .. => "test"
  | .cmovccRegReg cc .. => "cmov" ++ wx86CcName cc
  | .shlRegImm8 .. => "shl"
  | .shrRegImm8 .. => "shr"
  | .sarRegImm8 .. => "sar"
  | .negReg _ => "neg"
  | .cqo => "cqo"
  | .idivReg _ => "idiv"
  | .ret => "ret"
  | .jmpRel32 _ | .jmpReg _ => "jmp"
  | .jccRel32 cc _ => "j" ++ wx86CcName cc
  | .callRel32 _ | .callReg _ => "call"
  | .pushReg _ => "push"
  | .popReg _ => "pop"
  | .setccR8 cc _ => "set" ++ wx86CcName cc

/-- Two operands. -/
def pair (a b : String) : String := a ++ ", " ++ b

def memText (base : Wx86Reg) (disp : BitVec 32) : String :=
  "[" ++ wx86RegName base ++ signed disp.toInt ++ "]"

/-- A jump is reported with the way from where it begins. -/
def Wx86Call.operands : Wx86Call → String
  | .movRegImm64 dst imm => pair (wx86RegName dst) (toString imm.toInt)
  | .movRegImm32 dst imm | .addRegImm32 dst imm | .subRegImm32 dst imm | .andRegImm32 dst imm
  | .orRegImm32 dst imm | .cmpRegImm32 dst imm => pair (wx86RegName dst) (toString imm.toInt)
  | .movRegReg a b | .addRegReg a b | .adcRegReg a b | .sbbRegReg a b | .subRegReg a b | .andRegReg a b
  | .orRegReg a b | .imulRegReg a b | .xorRegReg a b | .cmpRegReg a b | .testRegReg a b
  | .cmovccRegReg _ a b => pair (wx86RegName a) (wx86RegName b)
  | .zeroReg r => pair (wx86RegName r) (wx86RegName r)
  | .movRegMem dst base disp | .movzxByteRegMem dst base disp | .leaRegMem dst base disp =>
    pair (wx86RegName dst) (memText base disp)
  | .movMemReg base disp src | .movntiMemReg base disp src => pair (memText base disp) (wx86RegName src)
  | .addRaxMem base disp => pair "rax" (memText base disp)
  | .leaScaledIndex dst base scale =>
    pair (wx86RegName dst) ("[" ++ wx86RegName base ++ "+" ++ wx86RegName base ++ "*" ++
      toString (2 ^ scale.toNat) ++ "]")
  | .imulRegRegImm32 dst src imm => pair (pair (wx86RegName dst) (wx86RegName src)) (toString imm.toInt)
  | .notReg r | .negReg r | .idivReg r | .imulRaxRm r | .callReg r | .jmpReg r | .pushReg r | .popReg r =>
    wx86RegName r
  | .shlRegImm8 dst count | .shrRegImm8 dst count | .sarRegImm8 dst count =>
    pair (wx86RegName dst) (toString count.toNat)
  | .subRspImm8 imm | .addRspImm8 imm => pair "rsp" (toString imm.toBitVec.toInt)
  | .jmpRel32 rel | .callRel32 rel => signed (rel + 5).toInt
  | .jccRel32 _ rel => signed (rel + 6).toInt
  | .setccR8 _ _ => "al"
  | .clc | .stc | .cqo | .ret => ""

/-- The instruction is reported with its mnemonic and its operands.  A `mov` of 64 bits is also called
`movabs`, and its number is hexadecimal then. -/
def Reports (c : Wx86Call) (i : WDisasmInst) : Prop :=
  i.mnemonic = c.mnemonic ∧ i.operands = c.operands ∨
    ∃ dst imm, c = .movRegImm64 dst imm ∧ i.mnemonic = "movabs" ∧
      i.operands = pair (wx86RegName dst) (hex imm.toNat)

/-- The instructions that the disassembler knows. -/
def Wx86Call.Readable : Wx86Call → Prop
  -- Operands in memory.
  | .movRegMem .. | .movzxByteRegMem .. | .movMemReg .. | .movntiMemReg .. | .addRaxMem .. | .leaRegMem ..
  | .leaScaledIndex .. => False
  -- Opcodes and opcode extensions that it has no case for.
  | .adcRegReg .. | .sbbRegReg .. | .andRegReg .. | .orRegReg .. | .imulRegRegImm32 .. | .cmovccRegReg ..
  | .setccR8 .. | .clc | .stc | .notReg _ | .imulRaxRm _ | .jmpReg _ => False
  -- The prefix of a high register.
  | .pushReg r | .popReg r | .zeroReg r => r.hi = false
  | _ => True

/-! ## Prefixes, registers and numbers -/

variable {reg rm r : Wx86Reg} {b m : UInt8} {p rest : List UInt8} {rex : Rex} {c : Wx86Call}
  {x : WDisasmInst}

@[simp]
theorem length_dword (d : BitVec 32) : (wx86EmitDword d).length = 4 := Bytes.length_le 4 _

@[simp]
theorem readI32_dword (d : BitVec 32) (rest : List UInt8) : readI32 (wx86EmitDword d ++ rest) = d := by
  have htake : (wx86EmitDword d ++ rest).take 4 = wx86EmitDword d := List.take_left' (length_dword d)
  refine BitVec.eq_of_toNat_eq ?_
  rw [readI32, htake, wx86EmitDword, Bytes.number_le, BitVec.toNat_ofNat]
  omega

@[simp]
theorem readI64_qword (q : BitVec 64) (rest : List UInt8) : readI64 (wx86EmitQword q ++ rest) = q := by
  rw [readI64, wx86EmitQword, List.append_assoc, readI32_dword, List.drop_left' (length_dword _), readI32_dword]
  refine BitVec.eq_of_getLsbD_eq fun i hi => ?_
  by_cases h : i < 32
  · simp [h, hi]
  · have hsub : i - 32 < 32 := by omega
    have hadd : 32 + (i - 32) = i := by omega
    simp [h, hi, hsub, hadd]

@[simp]
theorem regname64_num (r : Wx86Reg) : regname64 r.num = wx86RegName r := by
  cases r <;> rfl

/-- The fields of a ModRM byte. -/
theorem modrm_fields (mod : Fin 4) (reg rm : Fin 8) :
    let m := modrm (UInt8.ofNat mod) (UInt8.ofNat reg) (UInt8.ofNat rm)
    modOf m = UInt8.ofNat mod ∧ ((m >>> 3) &&& 7).toNat = reg ∧ (m &&& 7).toNat = rm := by
  revert mod reg rm
  decide

theorem num_bank (r : Wx86Reg) : r.num % 8 + (if r.hi then 8 else 0) = r.num := by
  cases r <;> rfl

theorem emit_fields (mod : Fin 4) (reg rm : Wx86Reg) : let m := wx86EmitModrm (UInt8.ofNat mod) reg rm
    modOf m = UInt8.ofNat mod ∧ ((m >>> 3) &&& 7).toNat = reg.num % 8 ∧ (m &&& 7).toNat = rm.num % 8 :=
  modrm_fields mod ⟨reg.num % 8, Nat.mod_lt _ (by omega)⟩ ⟨rm.num % 8, Nat.mod_lt _ (by omega)⟩

/-- The ModRM byte of two registers. -/
theorem emit_registers (reg rm : Wx86Reg) : modOf (wx86EmitModrm 3 reg rm) = 3 ∧
    ((wx86EmitModrm 3 reg rm >>> 3) &&& 7).toNat = reg.num % 8 ∧
    (wx86EmitModrm 3 reg rm &&& 7).toNat = rm.num % 8 :=
  emit_fields 3 reg rm

/-- The prefix of two registers. -/
def Rex.of (reg rm : Wx86Reg) : Rex := ⟨true, reg.hi, rm.hi, 1⟩

@[simp]
theorem modOf_emit : modOf (wx86EmitModrm 3 reg rm) = 3 := (emit_registers reg rm).1

@[simp]
theorem reg_emit : (Rex.of reg rm).reg (wx86EmitModrm 3 reg rm) = reg.num := by
  rw [Rex.reg, (emit_registers reg rm).2.1]
  exact num_bank reg

@[simp]
theorem rm_emit : (Rex.of reg rm).rm (wx86EmitModrm 3 reg rm) = rm.num := by
  rw [Rex.rm, (emit_registers reg rm).2.2]
  exact num_bank rm

@[simp]
theorem one_rex : wdisasmOne (wx86Rex reg rm true :: b :: p) = decodeOpcode (Rex.of reg rm) b p := by
  have hrex : 0x40 ≤ wx86Rex reg rm true ∧ wx86Rex reg rm true ≤ 0x4F ∧
      (wx86Rex reg rm true &&& 0x08 ≠ 0) ∧ (decide (wx86Rex reg rm true &&& 0x04 ≠ 0) = reg.hi) ∧
      (decide (wx86Rex reg rm true &&& 0x01 ≠ 0) = rm.hi) := by
    unfold wx86Rex
    cases reg.hi <;> cases rm.hi <;> decide
  obtain ⟨hlo, hhi, hw, hr, hb⟩ := hrex
  rw [wdisasmOne, if_pos ⟨hlo, hhi⟩]
  simp only [hr, hb, decide_eq_true hw, Rex.of]

/-! ## Opcodes -/

/-- An opcode with a ModRM byte. -/
theorem opcode_modrm (h : hasModrm b = true) :
    decodeOpcode rex b (m :: p) = some ((decodeModrm rex b m p).getD (decodeLast rex b (m :: p))) := by
  have hB8 : b ≠ 0xB8 := by
    rintro rfl
    exact absurd h (by decide)
  have hC7 : b ≠ 0xC7 := by
    rintro rfl
    exact absurd h (by decide)
  have h0F : b ≠ 0x0F := by
    rintro rfl
    exact absurd h (by decide)
  simp [decodeOpcode, decodeMovB8, decodeMovC7, decodeTwoByte, hB8, hC7, h0F, h]

/-- With two registers there is a case of the `switch` for it. -/
theorem opcode_registers (h : hasModrm b = true)
    (hx : decodeModrm (Rex.of reg rm) b (wx86EmitModrm 3 reg rm) p = some x) :
    wdisasmOne (wx86Rex reg rm true :: b :: wx86EmitModrm 3 reg rm :: p) = some x := by
  rw [one_rex, opcode_modrm h, hx]
  rfl

/-- The opcodes that are looked at in some other way. -/
def Unknown (b : UInt8) : Prop :=
  ¬(0xB8 ≤ b ∧ b ≤ 0xBF) ∧ b ≠ 0xC7 ∧ b ≠ 0x0F ∧ b ≠ 0x99 ∧ hasModrm b = false

instance : Decidable (Unknown b) := by
  unfold Unknown
  infer_instance

theorem last_db (hB : ¬(0xB8 ≤ b ∧ b ≤ 0xBF)) (h99 : b ≠ 0x99) : (decodeLast rex b p).mnemonic = "db" := by
  have hB9 : ¬(0xB9 ≤ b ∧ b ≤ 0xBF ∧ rex.w = true ∧ 8 ≤ p.length) := by
    rintro ⟨hlo, hhi, -⟩
    exact hB ⟨UInt8.le_trans (by decide) hlo, hhi⟩
  rw [decodeLast, if_neg fun h => h99 h.1, if_neg hB9]

/-- An opcode that there is no case for is a byte. -/
theorem opcode_unknown (h : Unknown b) (hx : decodeOpcode rex b p = some x) : x.mnemonic = "db" := by
  obtain ⟨hB, hC7, h0F, h99, hm⟩ := h
  have hB8 : b ≠ 0xB8 := by
    rintro rfl
    exact hB (by decide)
  have hparts : (decodeMovB8 rex b p).or ((decodeMovC7 rex b p).or (decodeTwoByte rex b p)) = none := by
    cases p <;> simp [decodeMovB8, decodeMovC7, decodeTwoByte, hB8, hC7, h0F]
  unfold decodeOpcode at hx
  rw [hparts] at hx
  simp only [hm, Bool.false_eq_true, if_false, Option.some.injEq] at hx
  rw [← hx]
  exact last_db hB h99

/-- So is one with an operand in memory. -/
theorem opcode_memory (hb : b ∈ [0x89, 0x8B, 0x8D]) (hmod : modOf m ≠ 3)
    (hx : decodeOpcode rex b (m :: p) = some x) : x.mnemonic = "db" := by
  have hm : hasModrm b = true ∧ ¬(0xB8 ≤ b ∧ b ≤ 0xBF) ∧ b ≠ 0x99 := by
    simp only [List.mem_cons, List.not_mem_nil, or_false] at hb
    rcases hb with rfl | rfl | rfl <;> decide
  have hnone : decodeModrm rex b m p = none := by
    unfold decodeModrm
    exact if_pos hmod
  rw [opcode_modrm hm.1, hnone] at hx
  rw [← Option.some.inj hx]
  exact last_db hm.2.1 hm.2.2

/-- So is a second byte that there is no case for. -/
theorem opcode_twoByte {b2 : UInt8} (h : ¬(0x80 ≤ b2 ∧ b2 ≤ 0x8F) ∧ b2 ≠ 0xAF)
    (hx : decodeOpcode rex 0x0F (b2 :: p) = some x) : x.mnemonic = "db" := by
  have hj : ¬(0x80 ≤ b2 ∧ b2 ≤ 0x8F ∧ 4 ≤ p.length) := fun hj => h.1 ⟨hj.1, hj.2.1⟩
  have hparts : (decodeMovB8 rex 0x0F (b2 :: p)).or
      ((decodeMovC7 rex 0x0F (b2 :: p)).or (decodeTwoByte rex 0x0F (b2 :: p))) = none := by
    simp [decodeMovB8, decodeMovC7, decodeTwoByte, hj, h.2]
  unfold decodeOpcode at hx
  rw [hparts] at hx
  have hm : hasModrm 0x0F = false := by decide
  simp only [hm, Bool.false_eq_true, if_false, Option.some.injEq] at hx
  rw [← hx]
  exact last_db (by decide) (by decide)

/-! ## Instructions that are known -/

/-- The instruction is reported whatever comes behind it. -/
theorem reads_of (h : ∀ rest, wdisasmOne (c.bytes ++ rest) = some ⟨c.mnemonic, c.operands, c.bytes.length⟩) :
    Walk.Reads wdisasmOne WDisasmInst.length Wx86Call.bytes Reports c :=
  fun rest => ⟨_, h rest, rfl, .inl ⟨rfl, rfl⟩⟩

theorem emitExt_eq {ext dst : Wx86Reg} (opcode : UInt8) (h : ext.hi = false) :
    emitExt opcode ext.lo dst = [wx86Rex ext dst true, opcode, wx86EmitModrm 3 ext dst] := by
  have hrex : wx86Rex .rbx dst true = wx86Rex ext dst true := by
    unfold wx86Rex
    rw [h]
    rfl
  rw [emitExt, hrex]
  rfl

@[simp]
theorem length_of : (Rex.of reg rm).length = 1 := rfl

variable {dst src ext : Wx86Reg} {name : String}

/-- The instructions with two registers. -/
theorem one_rmReg (hm : hasModrm b = true) (hd : decodeModrm (Rex.of src dst) b (wx86EmitModrm 3 src dst) rest =
      rmReg (Rex.of src dst) name (wx86EmitModrm 3 src dst)) :
    wdisasmOne (emitRexModrmRegReg b dst src true ++ rest) =
      some ⟨name, pair (wx86RegName dst) (wx86RegName src), 3⟩ := by
  refine opcode_registers hm (hd.trans ?_)
  simp [rmReg, pair]

/-- The instructions with a register and a number of 32 bits. -/
theorem one_imm32 (imm : BitVec 32) :
    wdisasmOne ([wx86Rex ext dst true, 0x81, wx86EmitModrm 3 ext dst] ++ wx86EmitDword imm ++ rest) =
      some ⟨opsNames.getD ext.num "???", pair (wx86RegName dst) (toString imm.toInt), 7⟩ := by
  rw [List.append_assoc]
  refine opcode_registers (by decide) ?_
  simp [decodeModrm, pair]

/-- The shifts. -/
theorem one_shift (count : UInt8) : wdisasmOne ([wx86Rex ext dst true, 0xC1, wx86EmitModrm 3 ext dst, count] ++ rest) =
      some ⟨shiftNames.getD ext.num "???", pair (wx86RegName dst) (toString count.toNat), 4⟩ := by
  refine opcode_registers (by decide) ?_
  simp [decodeModrm, pair]

theorem opcode_movB8 (hlen : 8 ≤ p.length) (hw : rex.w = true) : decodeOpcode rex 0xB8 p =
    some ⟨"mov", pair (regname64 (if rex.b then 8 else 0)) (toString (readI64 p).toInt), rex.length + 9⟩ := by
  simp [decodeOpcode, decodeMovB8, hlen, hw, pair]

theorem opcode_movabs (hlen : 8 ≤ p.length) (hw : rex.w = true)
    (hb : b ∈ [0xB9, 0xBA, 0xBB, 0xBC, 0xBD, 0xBE, 0xBF]) : decodeOpcode rex b p = some ⟨"movabs",
      pair (regname64 ((b - 0xB8).toNat + if rex.b then 8 else 0)) (hex (readI64 p).toNat),
      rex.length + 9⟩ := by
  have hother : b ≠ 0xB8 ∧ b ≠ 0xC7 ∧ b ≠ 0x0F ∧ b ≠ 0x99 ∧ hasModrm b = false ∧ 0xB9 ≤ b ∧ b ≤ 0xBF := by
    simp only [List.mem_cons, List.not_mem_nil, or_false] at hb
    rcases hb with rfl | rfl | rfl | rfl | rfl | rfl | rfl <;> decide
  obtain ⟨hB8, hC7, h0F, h99, hm, hrange⟩ := hother
  cases p with
  | nil => cases hlen
  | cons =>
    simp only [decodeOpcode, decodeMovB8, decodeMovC7, decodeTwoByte, decodeLast, hB8, hC7, h0F, h99, hm, hrange,
      hw, hlen, pair, false_and, if_false, Option.or_none, and_self, if_true, Bool.false_eq_true]

/-- The first register of a bank has a case of its own; the others are found at the end. -/
theorem one_movRegImm64 (imm : BitVec 64) (rest : List UInt8) :
    ∃ x, wdisasmOne (wx86MovRegImm64 dst imm ++ rest) = some x ∧ x.length = 10 ∧ Reports (.movRegImm64 dst imm) x := by
  have hread := readI64_qword imm rest
  have hlen : 8 ≤ (wx86EmitQword imm ++ rest).length := by
    simp only [wx86EmitQword, List.length_append, length_dword]
    omega
  show ∃ x, wdisasmOne (_ :: _ :: (wx86EmitQword imm ++ rest)) = some x ∧ _
  generalize wx86EmitQword imm ++ rest = p at hread hlen
  subst hread
  cases dst
  case rax | r8 => exact ⟨_, opcode_movB8 hlen rfl, rfl, .inl ⟨rfl, rfl⟩⟩
  all_goals exact ⟨_, opcode_movabs hlen rfl (by decide), rfl, .inr ⟨_, _, rfl, rfl, rfl⟩⟩

theorem one_movRegImm32 (imm : BitVec 32) : wdisasmOne (wx86MovRegImm32 dst imm ++ rest) =
    some ⟨"mov", pair (wx86RegName dst) (toString imm.toInt), 7⟩ := by
  rw [wx86MovRegImm32, List.append_assoc]
  have hreg : (Rex.of .rax dst).reg (wx86EmitModrm 3 .rax dst) = 0 := reg_emit
  simp [decodeOpcode, decodeMovB8, decodeMovC7, hreg, pair]

theorem one_imulRegReg : wdisasmOne (wx86ImulRegReg dst src ++ rest) =
    some ⟨"imul", pair (wx86RegName dst) (wx86RegName src), 4⟩ := by
  show wdisasmOne (wx86Rex dst src true :: 0x0F :: 0xAF :: wx86EmitModrm 3 dst src :: rest) = _
  simp [decodeOpcode, decodeMovB8, decodeMovC7, decodeTwoByte, pair]

/-- A jump: the prefix-free opcodes with a distance. -/
theorem one_jmpRel32 (rel : BitVec 32) : wdisasmOne (wx86JmpRel32 rel ++ rest) =
    some ⟨"jmp", signed (rel + 5).toInt, 5⟩ := by
  show wdisasmOne (0xE9 :: (wx86EmitDword rel ++ rest)) = _
  simp [wdisasmOne, decodeSingle]

theorem one_callRel32 (rel : BitVec 32) : wdisasmOne (wx86CallRel32 rel ++ rest) =
    some ⟨"call", signed (rel + 5).toInt, 5⟩ := by
  show wdisasmOne (0xE8 :: (wx86EmitDword rel ++ rest)) = _
  simp [wdisasmOne, decodeSingle]

theorem one_jccRel32 (cc : Wx86CC) (rel : BitVec 32) : wdisasmOne (wx86JccRel32 cc rel ++ rest) =
    some ⟨"j" ++ wx86CcName cc, signed (rel + 6).toInt, 6⟩ := by
  show wdisasmOne (0x0F :: (0x80 ||| (cc.num &&& 0xF)) :: (wx86EmitDword rel ++ rest)) = _
  have hcc : 0x80 ≤ 0x80 ||| (cc.num &&& 0xF) ∧ 0x80 ||| (cc.num &&& 0xF) ≤ 0x8F ∧
      ccnames.getD ((0x80 ||| (cc.num &&& 0xF)) &&& 0xF).toNat "j??" = "j" ++ wx86CcName cc := by
    cases cc <;> decide
  simp [wdisasmOne, decodeSingle, decodeOpcode, decodeMovB8, decodeMovC7, decodeTwoByte, hcc]
  cases cc <;> rfl

theorem one_negReg : wdisasmOne (wx86NegReg dst ++ rest) = some ⟨"neg", wx86RegName dst, 3⟩ := by
  refine opcode_registers (by decide) ?_
  have hreg : (Rex.of .rbx dst).reg (wx86EmitModrm 3 .rbx dst) = 3 := reg_emit
  simp [decodeModrm, hreg]

theorem one_idivReg : wdisasmOne (wx86IdivReg src ++ rest) = some ⟨"idiv", wx86RegName src, 3⟩ := by
  refine opcode_registers (by decide) ?_
  have hreg : (Rex.of .rdi src).reg (wx86EmitModrm 3 .rdi src) = 7 := reg_emit
  simp [decodeModrm, hreg]

theorem one_callReg : wdisasmOne (wx86CallReg r ++ rest) = some ⟨"call", wx86RegName r, 3⟩ := by
  refine opcode_registers (by decide) ?_
  have hreg : (Rex.of .rdx r).reg (wx86EmitModrm 3 .rdx r) = 2 := reg_emit
  simp [decodeModrm, hreg]

theorem one_pushReg (h : r.hi = false) : wdisasmOne (wx86PushReg r ++ rest) = some ⟨"push", wx86RegName r, 1⟩ := by
  rw [wx86PushReg, h]
  cases r <;> first
    | rfl
    | cases h

theorem one_popReg (h : r.hi = false) : wdisasmOne (wx86PopReg r ++ rest) = some ⟨"pop", wx86RegName r, 1⟩ := by
  rw [wx86PopReg, h]
  cases r <;> first
    | rfl
    | cases h

theorem one_zeroReg (h : r.hi = false) : wdisasmOne (wx86ZeroReg r ++ rest) =
    some ⟨"xor", pair (wx86RegName r) (wx86RegName r), 2⟩ := by
  rw [wx86ZeroReg, h]
  cases r <;> first
    | rfl
    | cases h

/-- **An instruction of a known form is reported as it is.** -/
theorem read_known (h : c.Readable) : Walk.Reads wdisasmOne WDisasmInst.length Wx86Call.bytes Reports c := by
  cases c with
  | movRegImm64 dst imm => exact one_movRegImm64 imm
  | movRegImm32 dst imm => exact reads_of fun _ => one_movRegImm32 imm
  | movRegReg | addRegReg | subRegReg | xorRegReg | cmpRegReg | testRegReg =>
    exact reads_of fun _ => one_rmReg (by decide) (by simp [decodeModrm, Wx86Call.mnemonic])
  | addRegImm32 dst imm => exact reads_of fun _ => one_imm32 imm
  | subRegImm32 dst imm =>
    refine reads_of fun rest => ?_
    show wdisasmOne (emitExt 0x81 (Wx86Reg.lo .rbp) dst ++ _ ++ rest) = _
    rw [emitExt_eq 0x81 rfl]
    exact one_imm32 imm
  | andRegImm32 dst imm =>
    refine reads_of fun rest => ?_
    show wdisasmOne (emitExt 0x81 (Wx86Reg.lo .rsp) dst ++ _ ++ rest) = _
    rw [emitExt_eq 0x81 rfl]
    exact one_imm32 imm
  | orRegImm32 dst imm =>
    refine reads_of fun rest => ?_
    show wdisasmOne (emitExt 0x81 (Wx86Reg.lo .rcx) dst ++ _ ++ rest) = _
    rw [emitExt_eq 0x81 rfl]
    exact one_imm32 imm
  | cmpRegImm32 dst imm => exact reads_of fun _ => one_imm32 imm
  | imulRegReg dst src => exact reads_of fun _ => one_imulRegReg
  | shlRegImm8 dst count | shrRegImm8 dst count | sarRegImm8 dst count =>
    exact reads_of fun _ => one_shift count
  | negReg dst => exact reads_of fun _ => one_negReg
  | idivReg src => exact reads_of fun _ => one_idivReg
  | ret => exact reads_of fun _ => rfl
  | cqo => exact reads_of fun rest => by cases rest <;> rfl
  | jmpRel32 rel => exact reads_of fun _ => one_jmpRel32 rel
  | jccRel32 cc rel => exact reads_of fun _ => one_jccRel32 cc rel
  | callRel32 rel => exact reads_of fun _ => one_callRel32 rel
  | callReg r => exact reads_of fun _ => one_callReg
  | pushReg r =>
    refine reads_of fun rest => ?_
    have hlen : (Wx86Call.pushReg r).bytes.length = 1 := by
      rw [Wx86Call.bytes, wx86PushReg, h]
      rfl
    rw [hlen]
    exact one_pushReg h
  | popReg r =>
    refine reads_of fun rest => ?_
    have hlen : (Wx86Call.popReg r).bytes.length = 1 := by
      rw [Wx86Call.bytes, wx86PopReg, h]
      rfl
    rw [hlen]
    exact one_popReg h
  | zeroReg r =>
    refine reads_of fun rest => ?_
    have hlen : (Wx86Call.zeroReg r).bytes.length = 2 := by
      rw [Wx86Call.bytes, wx86ZeroReg, h]
      rfl
    rw [hlen]
    exact one_zeroReg h
  | subRspImm8 imm | addRspImm8 imm => exact reads_of fun _ => rfl
  | _ => exact h.elim

/-! ## Instructions that are not -/

/-- No instruction has the name of what is not recognised. -/
theorem not_reports (h : x.mnemonic ∈ ["db", "f7", "ff"]) : ¬Reports c x := by
  have hnames : c.mnemonic ∉ ["db", "f7", "ff"] := by
    cases c with
    | jccRel32 cc | cmovccRegReg cc | setccR8 cc => cases cc <;> simp [Wx86Call.mnemonic, wx86CcName]
    | _ => simp [Wx86Call.mnemonic]
  rintro (⟨hm, -⟩ | ⟨dst, imm, -, hm, -⟩)
  · exact hnames (hm ▸ h)
  · rw [hm] at h
    exact absurd h (by decide)

theorem emitMem_cons (reg base : Wx86Reg) (disp : BitVec 32) : ∃ m t, emitMem reg base disp = m :: t ∧ modOf m ≠ 3 := by
  have hmod (mod : Fin 4) (h : mod ≠ 3) : modOf (wx86EmitModrm (UInt8.ofNat mod) reg base) ≠ 3 := by
    rw [(emit_fields mod reg base).1]
    revert mod
    decide
  have h0 : modOf (wx86EmitModrm 0 reg base) ≠ 3 := hmod 0 (by decide)
  have h1 : modOf (wx86EmitModrm 1 reg base) ≠ 3 := hmod 1 (by decide)
  have h2 : modOf (wx86EmitModrm 2 reg base) ≠ 3 := hmod 2 (by decide)
  unfold emitMem
  split_ifs <;> exact ⟨_, _, rfl, by assumption⟩

theorem one_plain (hb : ¬(0x40 ≤ b ∧ b ≤ 0x4F)) (hs : decodeSingle b p = none) :
    wdisasmOne (b :: p) = decodeOpcode ⟨false, false, false, 0⟩ b p := by
  show (if 0x40 ≤ b ∧ b ≤ 0x4F then _ else (decodeSingle b p).or _) = _
  rw [if_neg hb, hs]
  rfl

theorem one_rexed {b' : UInt8} (hb : 0x40 ≤ b ∧ b ≤ 0x4F) : wdisasmOne (b :: b' :: p) =
    decodeOpcode ⟨b &&& 0x08 ≠ 0, b &&& 0x04 ≠ 0, b &&& 0x01 ≠ 0, 1⟩ b' p := by
  rw [wdisasmOne, if_pos hb]

/-- A memory operand behind an opcode of one byte that is known with registers. -/
theorem one_memory (hb : b ∈ [0x89, 0x8B, 0x8D]) {disp : BitVec 32}
    (hx : wdisasmOne ([wx86Rex reg rm true, b] ++ emitMem reg rm disp ++ rest) = some x) :
    x.mnemonic = "db" := by
  obtain ⟨m, t, hm, hmod⟩ := emitMem_cons reg rm disp
  rw [hm] at hx
  exact opcode_memory hb hmod (one_rex.symm.trans hx)

/-- An opcode that is not known, behind a prefix. -/
theorem one_unknown (hb : Unknown b) (hx : wdisasmOne (wx86Rex reg rm true :: b :: p) = some x) : x.mnemonic = "db" :=
  opcode_unknown hb (one_rex.symm.trans hx)

/-- So with two bytes. -/
theorem one_unknownTwo {b2 : UInt8} (hb : ¬(0x80 ≤ b2 ∧ b2 ≤ 0x8F) ∧ b2 ≠ 0xAF)
    (hx : wdisasmOne (wx86Rex reg rm true :: 0x0F :: b2 :: p) = some x) : x.mnemonic = "db" :=
  opcode_twoByte hb (one_rex.symm.trans hx)

/-- An extension of the opcode 0xF7 that is not known. -/
theorem one_extension (h3 : ext.num ≠ 3) (h7 : ext.num ≠ 7) (h0 : ext.num ≠ 0)
    (hx : wdisasmOne (wx86Rex ext dst true :: 0xF7 :: wx86EmitModrm 3 ext dst :: p) = some x) :
    x.mnemonic = "f7" := by
  have hd : wdisasmOne (wx86Rex ext dst true :: 0xF7 :: wx86EmitModrm 3 ext dst :: p) = some _ :=
    opcode_registers (by decide) (by simp [decodeModrm, h3, h7, h0]; rfl)
  rw [hd] at hx
  rw [← Option.some.inj hx]

/-- **Any other instruction is reported wrongly**, whatever comes behind it. -/
theorem read_other (h : ¬c.Readable) (hx : wdisasmOne (c.bytes ++ rest) = some x) : ¬Reports c x := by
  have hdb (hdb : x.mnemonic = "db") : ¬Reports c x := not_reports (by simp [hdb])
  cases c with
  | movRegMem | movMemReg | leaRegMem => exact hdb (one_memory (by decide) hx)
  | movzxByteRegMem | movntiMemReg => exact hdb (one_unknownTwo (by decide) hx)
  | addRaxMem | adcRegReg | sbbRegReg | andRegReg | orRegReg | imulRegRegImm32 =>
    exact hdb (one_unknown (by decide) hx)
  | cmovccRegReg cc dst src =>
    have hcc : ¬(0x80 ≤ 0x40 + cc.num ∧ 0x40 + cc.num ≤ 0x8F) ∧ 0x40 + cc.num ≠ 0xAF := by
      cases cc <;> decide
    exact hdb (one_unknownTwo hcc hx)
  | setccR8 cc dst =>
    have hcc : ¬(0x80 ≤ 0x90 + cc.num ∧ 0x90 + cc.num ≤ 0x8F) ∧ 0x90 + cc.num ≠ 0xAF := by
      cases cc <;> decide
    exact hdb (opcode_twoByte hcc ((one_plain (by decide) rfl).symm.trans hx))
  | leaScaledIndex dst base scale =>
    refine hdb (opcode_memory (b := 0x8D) (by decide) ?_ ((one_rexed ?_).symm.trans hx))
    · cases dst <;> decide
    · cases dst.hi <;> cases base.hi <;> decide
  | clc | stc => exact hdb (opcode_unknown (by decide) ((one_plain (by decide) rfl).symm.trans hx))
  | notReg dst =>
    refine not_reports (List.mem_of_mem_tail (List.mem_cons.2 (.inl ?_)))
    have hbytes : (Wx86Call.notReg dst).bytes = emitExt 0xF7 (Wx86Reg.lo .rdx) dst := rfl
    rw [hbytes, emitExt_eq 0xF7 rfl] at hx
    exact one_extension (by decide) (by decide) (by decide) hx
  | imulRaxRm r =>
    have hx' : wdisasmOne (wx86Rex .rbp r true :: 0xF7 :: wx86EmitModrm 3 .rbp r :: rest) = some x := hx
    exact not_reports (List.mem_of_mem_tail (List.mem_cons.2
      (.inl (one_extension (by decide) (by decide) (by decide) hx'))))
  | jmpReg r =>
    have hff : ∃ t, wdisasmOne ((Wx86Call.jmpReg r).bytes ++ rest) = some ⟨"ff", t, 3⟩ := by
      cases r <;> exact ⟨_, rfl⟩
    obtain ⟨t, ht⟩ := hff
    rw [ht] at hx
    exact not_reports (by simp [← Option.some.inj hx])
  | pushReg r =>
    have hr : r.hi = true := by simpa [Wx86Call.Readable] using h
    rw [Wx86Call.bytes, wx86PushReg, hr] at hx
    refine hdb (opcode_unknown (b := 0x50 + r.lo) ?_ ((one_rexed (by decide)).symm.trans hx))
    cases r <;> decide
  | popReg r =>
    have hr : r.hi = true := by simpa [Wx86Call.Readable] using h
    rw [Wx86Call.bytes, wx86PopReg, hr] at hx
    refine hdb (opcode_unknown (b := 0x58 + r.lo) ?_ ((one_rexed (by decide)).symm.trans hx))
    cases r <;> decide
  | zeroReg r =>
    -- The register is taken for two different ones.
    have hr : r.hi = true := by simpa [Wx86Call.Readable] using h
    have hxor : wdisasmOne ((Wx86Call.zeroReg r).bytes ++ rest) =
        some ⟨"xor", pair (regname64 (r.num % 8)) (wx86RegName r), 3⟩ := by
      cases r <;> first
        | rfl
        | cases hr
    rw [hxor] at hx
    rw [← Option.some.inj hx]
    rintro (⟨-, hop⟩ | ⟨_, _, hc, -⟩)
    · have hne : pair (regname64 (r.num % 8)) (wx86RegName r) ≠ pair (wx86RegName r) (wx86RegName r) := by
        cases r <;> first
          | decide
          | cases hr
      exact hne hop
    · cases hc
  | _ => exact absurd trivial h

/-! ## Sequences -/

/-- The walk through the code of the calls stops exactly where their instructions begin, and reports each. -/
def Followed (cs : List Wx86Call) : Prop :=
  Walk.Follows Reports (wdisasmWalk (Walk.stream Wx86Call.bytes cs)) (Walk.places Wx86Call.bytes 0 cs)

theorem bytes_ne_nil (c : Wx86Call) : c.bytes ≠ [] := by
  cases c with
  | pushReg r | popReg r | zeroReg r => cases r <;> exact List.cons_ne_nil _ _
  | _ => exact List.cons_ne_nil _ _

/-- **The disassembler follows the code exactly if it knows each of its instructions.** -/
theorem disasm_follows (cs : List Wx86Call) : Followed cs ↔ ∀ c ∈ cs, c.Readable :=
  Walk.follows_iff rfl bytes_ne_nil (fun _ => read_known) (fun _ h _ _ hx => read_other h hx) cs _ 0
    (Nat.le_refl _)

/-- A push of `r12` is read as a byte: its prefix hides it from the case that is there for it. -/
theorem disasm_loses : ¬∀ cs : List Wx86Call, Followed cs := by
  intro h
  have hfound : wdisasmWalk (Walk.stream Wx86Call.bytes [.pushReg .r12]) = [(0, ⟨"db", hexByte 0x54, 2⟩)] := rfl
  have hpush := h [.pushReg .r12]
  rw [Followed, hfound] at hpush
  exact not_reports (by decide) (List.forall₂_cons.1 hpush).1.2

end WuBuOS.Jit
