import WuBuOS.Lib.Amd64
import WuBuOS.Jit.Encoder

/-!
# What the encoder's bytes mean

`jit/wubu_x86.c` against the instruction set: the bytes of an instruction are taken off rightly by
`Amd64.decode`, whatever comes behind them.
-/

namespace WuBuOS.Jit

/-- The register, as the machine has it. -/
def Wx86Reg.toAmd64 (r : Wx86Reg) : Amd64.Reg := Fin.ofNat 16 r.num

theorem toAmd64_inj {r r' : Wx86Reg} (h : r.toAmd64 = r'.toAmd64) : r = r' := by
  have hval : r.num % 16 = r'.num % 16 := congrArg Fin.val h
  cases r <;> cases r' <;> first
    | rfl
    | exact absurd hval (by decide)

variable {reg rm dst src base : Wx86Reg} {rest : List UInt8}

/-! ## Prefix and operands -/

theorem regOf_lo (r : Wx86Reg) : Amd64.regOf r.hi r.lo = r.toAmd64 := by
  cases r <;> rfl

theorem rex_bits (w : Bool) : wx86Rex reg rm w &&& 0xF0 = 0x40 ∧
    Amd64.Rex.ofByte (wx86Rex reg rm w) = ⟨w, reg.hi, rm.hi⟩ := by
  unfold wx86Rex
  cases w <;> cases reg.hi <;> cases rm.hi <;> decide

/-- The fields of a ModRM byte. -/
theorem modrm_bits (mod : Fin 4) (reg rm : Fin 8) : let m := modrm (UInt8.ofNat mod) (UInt8.ofNat reg) (UInt8.ofNat rm)
    Amd64.modOf m = UInt8.ofNat mod ∧ Amd64.regField m = UInt8.ofNat reg ∧ Amd64.rmField m = UInt8.ofNat rm := by
  revert mod reg rm
  decide

theorem emitModrm_bits {mod : UInt8} (h : mod < 4) (reg rm : Wx86Reg) :
    Amd64.modOf (wx86EmitModrm mod reg rm) = mod ∧ Amd64.regField (wx86EmitModrm mod reg rm) = reg.lo ∧
      Amd64.rmField (wx86EmitModrm mod reg rm) = rm.lo := by
  have hb := modrm_bits ⟨mod.toNat, h⟩ ⟨reg.num % 8, Nat.mod_lt _ (by omega)⟩ ⟨rm.num % 8, Nat.mod_lt _ (by omega)⟩
  rw [UInt8.ofNat_toNat] at hb
  exact hb

theorem decode_rex (w : Bool) : Amd64.decode (wx86Rex reg rm w :: rest) =
    Amd64.decodeOpcode (some ⟨w, reg.hi, rm.hi⟩) rest := by
  rw [Amd64.decode, if_pos (rex_bits w).1, (rex_bits w).2]

/-- An instruction with a prefix, an opcode and a ModRM byte. -/
theorem decode_wide {op m : UInt8} (h : op ≠ 0x0F ∧ op ≠ 0x99 ∧ op &&& 0xF8 ≠ 0xB8) :
    Amd64.decode (wx86Rex reg rm true :: op :: m :: rest) = Amd64.decodeWide ⟨true, reg.hi, rm.hi⟩ op m rest := by
  rw [decode_rex]
  simp [Amd64.decodeOpcode, h]

/-- A number of `n` bytes in front. -/
theorem takeNumber_le (n v : Nat) : Amd64.takeNumber n (Bytes.le n v ++ rest) = some (v % 256 ^ n, rest) := by
  have hlen := Bytes.length_le n v
  rw [Amd64.takeNumber, if_pos (by rw [List.length_append, hlen]; omega), List.take_left' hlen,
    List.drop_left' hlen, Bytes.number_le]

theorem takeDisp_dword {rm : UInt8} (h : rm ≠ 4) (d : BitVec 32) :
    Amd64.takeDisp 2 rm (wx86EmitDword d ++ rest) = some (d, rest) := by
  have hd : d.toNat % 256 ^ 4 = d.toNat := Nat.mod_eq_of_lt d.isLt
  rw [Amd64.takeDisp, if_neg h, if_neg (by simp), if_neg (by decide), if_pos rfl, wx86EmitDword, takeNumber_le, hd]
  simp

/-- A displacement that fits one byte. -/
theorem takeDisp_byte {rm : UInt8} (h : rm ≠ 4) {d : BitVec 32} (hlo : -128 ≤ d.toInt) (hhi : d.toInt ≤ 127) :
    Amd64.takeDisp 1 rm (UInt8.ofNat (d.toNat % 256) :: rest) = some (d, rest) := by
  have hlist : UInt8.ofNat (d.toNat % 256) :: rest = Bytes.le 1 (d.toNat % 256) ++ rest := by
    simp [Bytes.le]
  have hd : (BitVec.ofNat 8 (d.toNat % 256)).signExtend 32 = d := by
    refine BitVec.eq_of_toInt_eq ?_
    rw [BitVec.toInt_signExtend_of_le (by omega)]
    rw [BitVec.toInt_eq_toNat_cond] at hlo hhi
    rw [BitVec.toInt_eq_toNat_cond, BitVec.toInt_eq_toNat_cond, BitVec.toNat_ofNat]
    omega
  rw [Amd64.takeDisp, if_neg h, if_neg (by simp), if_pos rfl, hlist, takeNumber_le]
  simp [hd]

/-- **An operand in memory** is the base register and the displacement that were asked for, unless the base
register needs another byte. -/
theorem takeDisp_emitMem (hb : base.lo ≠ 4) (d : BitVec 32) : ∃ m c, emitMem reg base d = m :: c ∧
    Amd64.regField m = reg.lo ∧ Amd64.rmField m = base.lo ∧ Amd64.modOf m ≠ 3 ∧
    Amd64.takeDisp (Amd64.modOf m) base.lo (c ++ rest) = some (d, rest) := by
  have hsib : ¬(base.lo = 4 ∨ base.lo = 12) := by
    rintro (h | h)
    · exact hb h
    · cases base <;> exact absurd h (by decide)
  simp only [emitMem, if_neg hsib, List.nil_append]
  by_cases h0 : d = 0 ∧ base.lo ≠ 5
  · obtain ⟨hmod, hreg, hrm⟩ := emitModrm_bits (show (0 : UInt8) < 4 by decide) reg base
    rw [if_pos h0]
    refine ⟨_, _, rfl, hreg, hrm, ?_, ?_⟩ <;> rw [hmod]
    · decide
    · rw [Amd64.takeDisp, if_neg hb, if_pos ⟨rfl, h0.2⟩, h0.1]
      rfl
  · rw [if_neg h0]
    by_cases h1 : -128 ≤ d.toInt ∧ d.toInt ≤ 127
    · obtain ⟨hmod, hreg, hrm⟩ := emitModrm_bits (show (1 : UInt8) < 4 by decide) reg base
      rw [if_pos h1]
      refine ⟨_, _, rfl, hreg, hrm, ?_, ?_⟩ <;> rw [hmod]
      · decide
      · exact takeDisp_byte hb h1.1 h1.2
    · obtain ⟨hmod, hreg, hrm⟩ := emitModrm_bits (show (2 : UInt8) < 4 by decide) reg base
      rw [if_neg h1]
      refine ⟨_, _, rfl, hreg, hrm, ?_, ?_⟩ <;> rw [hmod]
      · decide
      · exact takeDisp_dword hb d

/-! ## Instructions -/

theorem encodes_movMemReg (hb : base.lo ≠ 4) (d : BitVec 32) (src : Wx86Reg) :
    Amd64.Encodes (wx86MovMemReg base d src) [.store base.toAmd64 d src.toAmd64] := by
  refine .one (by simp [wx86MovMemReg]) fun rest => ?_
  obtain ⟨m, c, hm, hreg, hrm, hmod, hd⟩ := @takeDisp_emitMem src base rest hb d
  rw [wx86MovMemReg, hm]
  show Amd64.decode (wx86Rex src base true :: 0x89 :: m :: (c ++ rest)) = _
  rw [decode_wide (by decide)]
  simp [Amd64.decodeWide, hmod, hreg, hrm, hd, regOf_lo]

theorem encodes_movRegMem (hb : base.lo ≠ 4) (d : BitVec 32) (dst : Wx86Reg) :
    Amd64.Encodes (wx86MovRegMem dst base d) [.load dst.toAmd64 base.toAmd64 d] := by
  refine .one (by simp [wx86MovRegMem]) fun rest => ?_
  obtain ⟨m, c, hm, hreg, hrm, hmod, hd⟩ := @takeDisp_emitMem dst base rest hb d
  rw [wx86MovRegMem, hm]
  show Amd64.decode (wx86Rex dst base true :: 0x8B :: m :: (c ++ rest)) = _
  rw [decode_wide (by decide)]
  simp [Amd64.decodeWide, hreg, hrm, hd, regOf_lo]

theorem emitQword_eq (q : BitVec 64) : wx86EmitQword q = Bytes.le 8 q.toNat := by
  simp [wx86EmitQword, wx86EmitDword, Bytes.le, List.range_succ, ← UInt8.toNat_inj, Nat.shiftRight_eq_div_pow]
  omega

theorem encodes_movRegImm64 (dst : Wx86Reg) (v : BitVec 64) :
    Amd64.Encodes (wx86MovRegImm64 dst v) [.movImm dst.toAmd64 v] := by
  refine .one (by simp [wx86MovRegImm64]) fun rest => ?_
  have hv : v.toNat % 256 ^ 8 = v.toNat := Nat.mod_eq_of_lt v.isLt
  have hrex : (0x48 ||| if dst.hi then 0x01 else 0) = wx86Rex .rax dst true := by
    unfold wx86Rex
    cases dst.hi <;> rfl
  have hop : 0xB8 + dst.lo ≠ 0x0F ∧ 0xB8 + dst.lo ≠ 0x99 ∧ (0xB8 + dst.lo) &&& 0xF8 = 0xB8 ∧
      (0xB8 + dst.lo) &&& 7 = dst.lo := by
    cases dst <;> decide
  obtain ⟨h0F, h99, hB8, hlo⟩ := hop
  rw [wx86MovRegImm64, emitQword_eq, hrex, List.cons_append, List.cons_append, decode_rex]
  have htake := @takeNumber_le rest 8 v.toNat
  rw [hv] at htake
  simp [Amd64.decodeOpcode, h0F, h99, hB8, hlo, htake, regOf_lo]

/-! ## Operations on registers -/

/-- An operation with two registers. -/
theorem encodes_emitRexModrm {op : UInt8} {o : Amd64.Alu} (ho : Amd64.aluOf op = some o)
    (hop : op ≠ 0x0F ∧ op ≠ 0x99 ∧ op &&& 0xF8 ≠ 0xB8) (hne : op ≠ 0x8B ∧ op ≠ 0xF7 ∧ op ≠ 0xC1)
    (dst src : Wx86Reg) :
    Amd64.Encodes (emitRexModrmRegReg op dst src true) [.alu o dst.toAmd64 src.toAmd64] := by
  refine .one (List.cons_ne_nil _ _) fun rest => ?_
  obtain ⟨hmod, hreg, hrm⟩ := emitModrm_bits (show (3 : UInt8) < 4 by decide) src dst
  show Amd64.decode (wx86Rex src dst true :: op :: wx86EmitModrm 3 src dst :: rest) = _
  rw [decode_wide hop]
  simp [Amd64.decodeWide, hne, hmod, hreg, hrm, ho, regOf_lo]

theorem encodes_imulRegReg (dst src : Wx86Reg) :
    Amd64.Encodes (wx86ImulRegReg dst src) [.imul dst.toAmd64 src.toAmd64] := by
  refine .one (List.cons_ne_nil _ _) fun rest => ?_
  obtain ⟨hmod, hreg, hrm⟩ := emitModrm_bits (show (3 : UInt8) < 4 by decide) dst src
  show Amd64.decode (wx86Rex dst src true :: 0x0F :: 0xAF :: wx86EmitModrm 3 dst src :: rest) = _
  rw [decode_rex]
  simp [Amd64.decodeOpcode, Amd64.decodeTwoByte, hmod, hreg, hrm, regOf_lo]

/-- A shift by a constant; `ext` is there for its place in the opcode. -/
theorem encodes_shift {ext : Wx86Reg} {o : Amd64.Shift} (ho : Amd64.shiftOf ext.lo = some o) (dst : Wx86Reg) (n : UInt8) :
    Amd64.Encodes [wx86Rex ext dst true, 0xC1, wx86EmitModrm 3 ext dst, n] [.shift o dst.toAmd64 n] := by
  refine .one (List.cons_ne_nil _ _) fun rest => ?_
  obtain ⟨hmod, hreg, hrm⟩ := emitModrm_bits (show (3 : UInt8) < 4 by decide) ext dst
  show Amd64.decode (wx86Rex ext dst true :: 0xC1 :: wx86EmitModrm 3 ext dst :: n :: rest) = _
  rw [decode_wide (by decide)]
  simp [Amd64.decodeWide, hmod, hreg, hrm, ho, regOf_lo]

theorem encodes_cqo : Amd64.Encodes wx86Cqo [.cqo] := .one (List.cons_ne_nil _ _) fun _ => rfl

theorem encodes_idivReg (src : Wx86Reg) : Amd64.Encodes (wx86IdivReg src) [.idiv src.toAmd64] := by
  refine .one (List.cons_ne_nil _ _) fun rest => ?_
  obtain ⟨hmod, hreg, hrm⟩ := emitModrm_bits (show (3 : UInt8) < 4 by decide) .rdi src
  have hext : Amd64.regField (wx86EmitModrm 3 .rdi src) = 7 := hreg
  show Amd64.decode (wx86Rex .rdi src true :: 0xF7 :: wx86EmitModrm 3 .rdi src :: rest) = _
  rw [decode_wide (by decide)]
  simp [Amd64.decodeWide, hmod, hext, hrm, regOf_lo]

/-- A condition goes to `al`, whichever register was asked for. -/
theorem encodes_setccR8 {cc : Wx86CC} {k : X86.Cc} (hk : Amd64.ccOf cc.num = some k) (dst : Wx86Reg) :
    Amd64.Encodes (wx86SetccR8 cc dst) [.setcc k (.low 0)] := by
  refine .one (List.cons_ne_nil _ _) fun rest => ?_
  cases cc <;> simp [Amd64.ccOf, Wx86CC.num] at hk <;> subst hk <;> rfl

end WuBuOS.Jit
