import WuBuOS.Jit.CodeGenArm64
import WuBuOS.Jit.CodeGenRv64

/-!
# Immediates

The entries `mov_imm`, `add_imm` and `sub_imm` of the ARM64 and the RV64 table.  The words they emit are decoded and
run, and a call is exact if it leaves the result in its register, whatever the state before (`ImmTarget.Exact`).

* ARM64 puts a constant together from chunks of 16 bits, but each `movz` clears what the one before it has set: only
  one chunk is left (`arm64Left_iff`).  A sum with a large constant has one chunk of it, and register 31 is the
  stack pointer in one form of a sum and zero in the other (`arm64_sum_iff`).
* RV64 shifts the upper bits twice, so a constant is right below 2^11, and where the second shift does no harm
  (`rv64Left_iff`).
* `immediate_iff`: which calls are exact nonetheless, for both; `arm64_chunk_lost`: one that is not.
-/

namespace WuBuOS.CodeGen

open WordCode

/-! ## The calls -/

/-- The functions of `CodeGenVTable` with a constant. -/
structure ImmVTable where
  movImm : CGReg → BitVec 64 → List UInt8
  addImm : CGReg → CGReg → BitVec 32 → List UInt8
  subImm : CGReg → CGReg → BitVec 32 → List UInt8

inductive ImmCall where
  | mov (rd : CGReg) (imm : BitVec 64)
  | add (rd rn : CGReg) (imm : BitVec 32)
  | sub (rd rn : CGReg) (imm : BitVec 32)

def ImmCall.code (vt : ImmVTable) : ImmCall → List UInt8
  | .mov rd imm => vt.movImm rd imm
  | .add rd rn imm => vt.addImm rd rn imm
  | .sub rd rn imm => vt.subImm rd rn imm

def ImmCall.dst : ImmCall → CGReg
  | .mov rd _ | .add rd _ _ | .sub rd _ _ => rd

def ImmCall.result (v : CGReg → BitVec 64) : ImmCall → BitVec 64
  | .mov _ imm => imm
  | .add _ rn imm => v rn + imm.setWidth 64
  | .sub _ rn imm => v rn - imm.setWidth 64

/-- An architecture with its table, and the registers that the entries use for themselves. -/
structure ImmTarget where
  State : Type
  vt : ImmVTable
  exec : List UInt8 → State → Option State
  reg : State → CGReg → BitVec 64
  scratch : List CGReg

/-- The registers of a sum or a difference are two, and neither is a scratch register. -/
def ImmTarget.Admits (T : ImmTarget) : ImmCall → Prop
  | .mov _ _ => True
  | .add rd rn _ | .sub rd rn _ => rd ≠ rn ∧ rd ∉ T.scratch ∧ rn ∉ T.scratch

/-- **The code leaves the result in the register**, whatever the state. -/
def ImmTarget.Exact (T : ImmTarget) (c : ImmCall) : Prop :=
  ∀ s, ∃ t, T.exec (c.code T.vt) s = some t ∧ T.reg t c.dst = c.result (T.reg s)

/-! ## ARM64 -/

abbrev wregX11 : WArm64Reg := 11

/-- An operation with a constant of 12 bits. -/
def warm64Imm12 (ins : Nat) (rd rn : WArm64Reg) (imm12 : BitVec 16) (sf : Nat) : List UInt8 :=
  warm64EmitWord (ins ||| (sf &&& 1) <<< 31 ||| (imm12.toNat &&& 0xFFF) <<< 10 ||| (rn.val &&& 0x1F) <<< 5 |||
    (rd.val &&& 0x1F))

def warm64AddImm : WArm64Reg → WArm64Reg → BitVec 16 → Nat → List UInt8 := warm64Imm12 0x91000000

def warm64SubImm : WArm64Reg → WArm64Reg → BitVec 16 → Nat → List UInt8 := warm64Imm12 0xD1000000

def warm64MovzImm (rd : WArm64Reg) (imm16 : BitVec 16) (hw sf : Nat) : List UInt8 :=
  warm64EmitWord (0xD2800000 ||| (sf &&& 1) <<< 31 ||| (hw &&& 3) <<< 21 ||| (imm16.toNat &&& 0xFFFF) <<< 5 |||
    (rd.val &&& 0x1F))

/-- A constant above 12 bits is loaded into `X10` and `X11`; only `X10` is used. -/
def arm64LoadImm (imm : BitVec 32) : List UInt8 :=
  warm64MovzImm wregX10 ((imm &&& 0xFFFF).setWidth 16) 0 1 ++
    warm64MovzImm wregX11 ((imm >>> 16 &&& 0xFFFF).setWidth 16) 1 1

def arm64AddImm (rd rn : CGReg) (imm : BitVec 32) : List UInt8 :=
  if imm.toNat ≤ 0xFFF then warm64AddImm (cgToArm64 rd) (cgToArm64 rn) (imm.setWidth 16) 1
  else arm64LoadImm imm ++ warm64AddReg (cgToArm64 rd) (cgToArm64 rn) wregX10 1

def arm64SubImm (rd rn : CGReg) (imm : BitVec 32) : List UInt8 :=
  if imm.toNat ≤ 0xFFF then warm64SubImm (cgToArm64 rd) (cgToArm64 rn) (imm.setWidth 16) 1
  else arm64LoadImm imm ++ warm64SubReg (cgToArm64 rd) (cgToArm64 rn) wregX10 1

/-- `w0` to `w3`. -/
def chunk (imm : BitVec 64) (k : Nat) : BitVec 16 := (imm.sshiftRight (16 * k) &&& 0xFFFF).setWidth 16

/-- A chunk of zeros is left out. -/
def arm64Chunk (rd : CGReg) (imm : BitVec 64) (k : Nat) : List UInt8 :=
  if chunk imm k ≠ 0 then warm64MovzImm (cgToArm64 rd) (chunk imm k) k 1 else []

def arm64MovImm (rd : CGReg) (imm : BitVec 64) : List UInt8 :=
  let first := warm64MovzImm (cgToArm64 rd) (chunk imm 0) 0 1
  if 0 ≤ imm.toInt ∧ imm.toInt ≤ 0xFFFF then first
  else if 0 ≤ imm.toInt ∧ imm.toInt ≤ 0xFFFFFFFF then first ++ arm64Chunk rd imm 1
  else first ++ (arm64Chunk rd imm 1 ++ (arm64Chunk rd imm 2 ++ arm64Chunk rd imm 3))

/-- The stack pointer and the zero register have one number. -/
def arm64ImmTarget : ImmTarget where
  State := A64.State
  vt := ⟨arm64MovImm, arm64AddImm, arm64SubImm⟩
  exec := A64.execAny
  reg s r := if r = cgRegSp then s.sp else s.get (cgToArm64 r)
  scratch := [10, 11]

/-! ## RV64 -/

abbrev rvOpLui : Nat := 0x37

/-- `imm20` is shifted here. -/
def rv64Lui (rd : RV64Reg) (imm20 : BitVec 32) : List UInt8 :=
  rv64Emit (((imm20 &&& 0xFFFFF) <<< 12).toNat ||| (rd.val &&& 0x1F) <<< 7 ||| rvOpLui)

/-- The upper bits are shifted here, too.  `hi` is not used. -/
def rv64Li (rd : RV64Reg) (imm : BitVec 64) : List UInt8 :=
  let lo : BitVec 32 := (imm &&& 0xFFF).setWidth 32
  let lo := if lo &&& 0x800 ≠ 0 then lo ||| ~~~0xFFF else lo
  let hi20 : BitVec 32 := (imm.sshiftRight 12 &&& 0xFFFFF).setWidth 32
  if hi20 ≠ 0 then rv64Lui rd (hi20 <<< 12) ++ if lo ≠ 0 then rv64Addi rd rd (lo.setWidth 16) else []
  else rv64Addi rd rvX0 (lo.setWidth 16)

def rv64AddImm (rd rn : CGReg) (imm : BitVec 32) : List UInt8 :=
  if imm.toNat ≤ 0xFFF then rv64Addi (cgToRv64 rd) (cgToRv64 rn) (imm.setWidth 16)
  else rv64Li rvT6 (imm.setWidth 64) ++ rv64Add (cgToRv64 rd) (cgToRv64 rn) rvT6

def rv64SubImm (rd rn : CGReg) (imm : BitVec 32) : List UInt8 :=
  if imm.toNat ≤ 0x1000 then rv64Addi (cgToRv64 rd) (cgToRv64 rn) ((-imm).setWidth 16)
  else rv64Li rvT6 (imm.setWidth 64) ++ rv64Sub (cgToRv64 rd) (cgToRv64 rn) rvT6

def rv64MovImm (rd : CGReg) (imm : BitVec 64) : List UInt8 := rv64Li (cgToRv64 rd) imm

/-- `CG_REG_14` is `T6`. -/
def rv64ImmTarget : ImmTarget where
  State := Rv64.State
  vt := ⟨rv64MovImm, rv64AddImm, rv64SubImm⟩
  exec := Rv64.execAny
  reg s r := s.get (cgToRv64 r)
  scratch := [14]

/-! ## Which constants are left -/

/-- One chunk of 16 bits, and zeros. -/
def OneChunk (imm : BitVec 64) : Prop := ∃ k < 4, ∃ w < 2 ^ 16, imm.toNat = w * 2 ^ (16 * k)

/-- A small constant goes with the stack pointer, and a large one with the zero register. -/
def Arm64SumFits (rd rn : CGReg) (imm : BitVec 32) : Prop :=
  imm.toNat ≤ 0xFFF ∧ rd ≠ cgRegXzr ∧ rn ≠ cgRegXzr ∨
    0xFFF < imm.toNat ∧ imm.toNat ≤ 0xFFFF ∧ rd ≠ cgRegSp ∧ rd ≠ cgRegXzr ∧ rn ≠ cgRegSp

def Arm64ImmFits : ImmCall → Prop
  | .mov rd imm => rd ≠ cgRegSp ∧ (if rd = cgRegXzr then imm = 0 else OneChunk imm)
  | .add rd rn imm | .sub rd rn imm => Arm64SumFits rd rn imm

/-- Below 2^11, or where the double shift does no harm. -/
def Rv64LiFits (imm : BitVec 64) : Prop :=
  0 ≤ imm.toInt ∧ imm.toInt < 2 ^ 11 ∨ -(2 ^ 24 + 2 ^ 11) ≤ imm.toInt ∧ imm.toInt < -2 ^ 24

def Rv64ImmFits : ImmCall → Prop
  | .mov _ imm => Rv64LiFits imm
  | .add _ _ imm => imm.toNat < 2 ^ 11
  | .sub _ _ imm => imm.toNat ≤ 2 ^ 11

/-! ## ARM64: what the words mean -/

theorem arm64_encodes_movz (rd : WArm64Reg) (imm16 : BitVec 16) {hw : Nat} (hhw : hw < 4) :
    A64.EncodesAny (warm64MovzImm rd imm16 hw 1) [.inr (.movz rd imm16.toNat hw)] := by
  have hword : 0xD2800000 ||| (1 &&& 1) <<< 31 ||| (hw &&& 3) <<< 21 ||| (imm16.toNat &&& 0xFFFF) <<< 5 |||
      (rd.val &&& 0x1F) = 0x1A5 * 2 ^ 23 + hw * 2 ^ 21 + imm16.toNat * 2 ^ 5 + rd.val := by
    have mi : imm16.toNat &&& 0xFFFF = imm16.toNat := mask (n := 16) imm16.isLt
    have mh : hw &&& 3 = hw := mask (n := 2) hhw
    have hins : 0xD2800000 ||| (1 &&& 1) <<< 31 = 0x1A5 * 2 ^ 23 := by decide
    rw [maskReg, mi, mh, hins, or_shift (n := 2) (by decide) hhw, or_shift (n := 16) (by omega) imm16.isLt,
      or_low (n := 5) (by omega) rd.isLt]
  rw [warm64MovzImm, hword]
  exact A64.encodes_movz imm16.isLt hhw rd.isLt

theorem arm64_encodes_addSub (sub : Bool) (rd rn : WArm64Reg) {imm12 : BitVec 16} (hlt : imm12.toNat < 2 ^ 12) :
    A64.EncodesAny (warm64Imm12 (if sub then 0xD1000000 else 0x91000000) rd rn imm12 1)
      [.inr (.addSub sub rd rn imm12.toNat)] := by
  have hword : (if sub then 0xD1000000 else 0x91000000) ||| (1 &&& 1) <<< 31 ||| (imm12.toNat &&& 0xFFF) <<< 10 |||
      (rn.val &&& 0x1F) <<< 5 ||| (rd.val &&& 0x1F) =
        (if sub then 0x344 else 0x244) * 2 ^ 22 + imm12.toNat * 2 ^ 10 + rn.val * 2 ^ 5 + rd.val := by
    have mi : imm12.toNat &&& 0xFFF = imm12.toNat := mask (n := 12) hlt
    have hins : (if sub then 0xD1000000 else 0x91000000) ||| (1 &&& 1) <<< 31 = (if sub then 0x344 else 0x244) * 2 ^ 22 := by
      cases sub <;> decide
    rw [maskReg, maskReg, mi, hins, or_shift (n := 12) (by omega) hlt, or_shift (n := 5) (by omega) rn.isLt,
      or_low (n := 5) (by omega) rd.isLt]
  rw [warm64Imm12, hword]
  exact A64.encodes_addSub sub hlt rn.isLt rd.isLt

/-! ## ARM64: chunks -/

theorem chunk_toNat (imm : BitVec 64) {k : Nat} (hk : k < 4) : (chunk imm k).toNat = imm.toNat / 2 ^ (16 * k) % 2 ^ 16 := by
  have heq : chunk imm k = (imm >>> (16 * k)).setWidth 16 := by
    refine BitVec.eq_of_getLsbD_eq fun i hi => ?_
    have hmask : (0xFFFF : BitVec 64).getLsbD i = true := by
      have hall : ∀ i : Fin 16, (0xFFFF : BitVec 64).getLsbD i = true := by decide
      exact hall ⟨i, hi⟩
    rw [chunk, BitVec.getLsbD_setWidth, BitVec.getLsbD_and, hmask, BitVec.getLsbD_sshiftRight, BitVec.getLsbD_setWidth,
      BitVec.getLsbD_ushiftRight, if_pos (show 16 * k + i < 64 by omega)]
    simp [show ¬64 ≤ i by omega]
  rw [heq, BitVec.toNat_setWidth, BitVec.toNat_ushiftRight, Nat.shiftRight_eq_div_pow]

/-- What the `movz` of a chunk sets. -/
def chunkValue (imm : BitVec 64) (k : Nat) : BitVec 64 := BitVec.ofNat 64 (chunk imm k).toNat <<< (16 * k)

theorem chunkValue_toNat (imm : BitVec 64) {k : Nat} (hk : k < 4) :
    (chunkValue imm k).toNat = imm.toNat / 2 ^ (16 * k) % 2 ^ 16 * 2 ^ (16 * k) := by
  rw [chunkValue, BitVec.toNat_shiftLeft, BitVec.toNat_ofNat,
    Nat.mod_eq_of_lt (show (chunk imm k).toNat < 2 ^ 64 by omega), Nat.shiftLeft_eq, chunk_toNat imm hk]
  refine Nat.mod_eq_of_lt ?_
  have hmod := Nat.mod_lt (imm.toNat / 2 ^ (16 * k)) (show 2 ^ 16 > 0 by decide)
  calc imm.toNat / 2 ^ (16 * k) % 2 ^ 16 * 2 ^ (16 * k)
      < 2 ^ 16 * 2 ^ (16 * k) := Nat.mul_lt_mul_of_pos_right hmod (Nat.two_pow_pos _)
    _ = 2 ^ (16 + 16 * k) := (Nat.pow_add ..).symm
    _ ≤ 2 ^ 64 := Nat.pow_le_pow_right (by decide) (by omega)

/-- A number with one chunk only. -/
theorem chunk_of_one {k w : Nat} (hw : w < 2 ^ 16) (j : Nat) :
    w * 2 ^ (16 * k) / 2 ^ (16 * j) % 2 ^ 16 = if j = k then w else 0 := by
  rcases Nat.lt_trichotomy j k with h | h | h
  · obtain ⟨d, rfl⟩ : ∃ d, k = j + (1 + d) := ⟨k - j - 1, by omega⟩
    have hpow : w * 2 ^ (16 * (j + (1 + d))) = w * 2 ^ (16 * d) * 2 ^ 16 * 2 ^ (16 * j) := by
      rw [Nat.mul_add, Nat.mul_add, Nat.pow_add, Nat.pow_add]
      ac_rfl
    rw [hpow, Nat.mul_div_cancel _ (Nat.two_pow_pos _), Nat.mul_mod_left, if_neg (by omega)]
  · rw [h, Nat.mul_div_cancel _ (Nat.two_pow_pos _), Nat.mod_eq_of_lt hw, if_pos rfl]
  · obtain ⟨d, rfl⟩ : ∃ d, j = k + (1 + d) := ⟨j - k - 1, by omega⟩
    have hle : 2 ^ 16 ≤ 2 ^ (16 * (1 + d)) := Nat.pow_le_pow_right (by decide) (by omega)
    rw [Nat.mul_add, Nat.pow_add, Nat.mul_comm w, Nat.mul_div_mul_left _ _ (Nat.two_pow_pos _),
      Nat.div_eq_of_lt (by omega), Nat.zero_mod, if_neg (by omega)]

/-- The value of the last `movz`. -/
def arm64Left (imm : BitVec 64) : BitVec 64 :=
  if chunk imm 3 ≠ 0 then chunkValue imm 3
  else if chunk imm 2 ≠ 0 then chunkValue imm 2
  else if chunk imm 1 ≠ 0 then chunkValue imm 1
  else chunkValue imm 0

/-- **What is left is the constant only if it has no other chunk.** -/
theorem arm64Left_iff (imm : BitVec 64) : arm64Left imm = imm ↔ OneChunk imm := by
  have hzero : ∀ k < 4, chunk imm k ≠ 0 ↔ imm.toNat / 2 ^ (16 * k) % 2 ^ 16 ≠ 0 := fun k hk => by
    rw [← chunk_toNat imm hk, ne_eq, ne_eq, ← BitVec.toNat_inj]
    rfl
  rw [← BitVec.toNat_inj]
  unfold arm64Left
  simp only [apply_ite BitVec.toNat, hzero 1 (by decide), hzero 2 (by decide), hzero 3 (by decide),
    chunkValue_toNat imm (show 0 < 4 by decide), chunkValue_toNat imm (show 1 < 4 by decide),
    chunkValue_toNat imm (show 2 < 4 by decide), chunkValue_toNat imm (show 3 < 4 by decide)]
  constructor
  · intro h
    split at h
    · exact ⟨3, by decide, _, Nat.mod_lt _ (by decide), h.symm⟩
    split at h
    · exact ⟨2, by decide, _, Nat.mod_lt _ (by decide), h.symm⟩
    split at h
    · exact ⟨1, by decide, _, Nat.mod_lt _ (by decide), h.symm⟩
    · exact ⟨0, by decide, _, Nat.mod_lt _ (by decide), h.symm⟩
  · rintro ⟨k, hk, w, hw, he⟩
    simp only [he, chunk_of_one hw]
    by_cases hw0 : w = 0
    · simp [hw0]
    · obtain rfl | rfl | rfl | rfl : k = 0 ∨ k = 1 ∨ k = 2 ∨ k = 3 := by omega
      all_goals simp [hw0]

theorem toNat_le_of_toInt {imm : BitVec 64} {b : Nat} (h : 0 ≤ imm.toInt ∧ imm.toInt ≤ b) : imm.toNat ≤ b := by
  rw [BitVec.toInt_eq_toNat_cond] at h
  split at h <;> omega

/-- The shortcuts leave out what is zero anyway. -/
theorem arm64MovImm_eq (rd : CGReg) (imm : BitVec 64) : arm64MovImm rd imm =
    warm64MovzImm (cgToArm64 rd) (chunk imm 0) 0 1 ++
      (arm64Chunk rd imm 1 ++ (arm64Chunk rd imm 2 ++ arm64Chunk rd imm 3)) := by
  have hnone : ∀ k, k < 4 → imm.toNat < 2 ^ (16 * k) → arm64Chunk rd imm k = [] := fun k hk hlt => by
    refine if_neg (not_not.2 (BitVec.toNat_inj.1 ?_))
    rw [chunk_toNat imm hk, Nat.div_eq_of_lt hlt]
    rfl
  by_cases h16 : 0 ≤ imm.toInt ∧ imm.toInt ≤ 0xFFFF
  · have hle : imm.toNat ≤ 0xFFFF := toNat_le_of_toInt h16
    rw [arm64MovImm, if_pos h16, hnone 1 (by decide) (by omega), hnone 2 (by decide) (by omega),
      hnone 3 (by decide) (by omega)]
    rfl
  by_cases h32 : 0 ≤ imm.toInt ∧ imm.toInt ≤ 0xFFFFFFFF
  · have hle : imm.toNat ≤ 0xFFFFFFFF := toNat_le_of_toInt h32
    rw [arm64MovImm, if_neg h16, if_pos h32, hnone 2 (by decide) (by omega), hnone 3 (by decide) (by omega),
      List.append_nil, List.append_nil]
  · rw [arm64MovImm, if_neg h16, if_neg h32]

/-! ## ARM64: what is left -/

theorem ImmTarget.exact_iff (T : ImmTarget) (c : ImmCall) (f : T.State → T.State)
    (h : ∀ s, T.exec (c.code T.vt) s = some (f s)) : T.Exact c ↔ ∀ s, T.reg (f s) c.dst = c.result (T.reg s) := by
  refine forall_congr' fun s => ?_
  rw [h s]
  simp

theorem cgToArm64_31 (r : CGReg) : cgToArm64 r = 31 ↔ r = cgRegSp ∨ r = cgRegXzr := by
  revert r
  decide

theorem cgToArm64_scratch (r : CGReg) (h : r ∉ arm64ImmTarget.scratch) : cgToArm64 r ≠ wregX10 ∧ cgToArm64 r ≠ wregX11 := by
  revert r
  decide

section

variable {s : A64.State} {rd rn : CGReg}

theorem arm64Imm_reg (h : rd ≠ cgRegSp) : arm64ImmTarget.reg s rd = s.get (cgToArm64 rd) := if_neg h

theorem arm64Imm_reg_sp : arm64ImmTarget.reg s cgRegSp = s.sp := rfl

theorem arm64Imm_reg_xzr : arm64ImmTarget.reg s cgRegXzr = 0 := rfl

/-- The state in which each register holds the one value and the stack pointer the other. -/
def arm64Filled (a b : BitVec 64) : A64.State := ⟨fun _ => a, b, ⟨false, false, false, false⟩⟩

theorem arm64Filled_reg (a b : BitVec 64) (h : rd ≠ cgRegSp) (h' : rd ≠ cgRegXzr) :
    arm64ImmTarget.reg (arm64Filled a b) rd = a := by
  have hne : cgToArm64 rd ≠ 31 := fun he => ((cgToArm64_31 rd).1 he).elim h h'
  rw [arm64Imm_reg h, A64.State.get, if_neg hne]
  rfl

/-! ### Constants -/

/-- The state after a chunk. -/
def afterChunk (rd : CGReg) (imm : BitVec 64) (k : Nat) (s : A64.State) : A64.State :=
  if chunk imm k ≠ 0 then s.set (cgToArm64 rd) (chunkValue imm k) else s

theorem arm64_encodes_chunk (rd : CGReg) (imm : BitVec 64) {k : Nat} (hk : k < 4) :
    ∃ is, A64.EncodesAny (arm64Chunk rd imm k) is ∧ ∀ s, MachineCode.run A64.stepAny is s = some (afterChunk rd imm k s) := by
  unfold arm64Chunk afterChunk
  split
  · exact ⟨_, arm64_encodes_movz _ _ hk, fun s => rfl⟩
  · exact ⟨[], .nil, fun s => rfl⟩

def afterMov (rd : CGReg) (imm : BitVec 64) (s : A64.State) : A64.State :=
  afterChunk rd imm 3 (afterChunk rd imm 2 (afterChunk rd imm 1 (s.set (cgToArm64 rd) (chunkValue imm 0))))

theorem arm64_mov_run (rd : CGReg) (imm : BitVec 64) (s : A64.State) :
    A64.execAny (arm64MovImm rd imm) s = some (afterMov rd imm s) := by
  have h0 := arm64_encodes_movz (cgToArm64 rd) (chunk imm 0) (show 0 < 4 by decide)
  obtain ⟨is1, h1, hrun1⟩ := arm64_encodes_chunk rd imm (show 1 < 4 by decide)
  obtain ⟨is2, h2, hrun2⟩ := arm64_encodes_chunk rd imm (show 2 < 4 by decide)
  obtain ⟨is3, h3, hrun3⟩ := arm64_encodes_chunk rd imm (show 3 < 4 by decide)
  rw [arm64MovImm_eq, A64.execAny, (h0.append (h1.append (h2.append h3))).exec]
  show MachineCode.run A64.stepAny (is1 ++ (is2 ++ is3)) (s.set (cgToArm64 rd) (chunkValue imm 0)) = _
  rw [MachineCode.run_append, hrun1, Option.bind_some, MachineCode.run_append, hrun2, Option.bind_some, hrun3]
  rfl

theorem afterChunk_get (imm : BitVec 64) (k : Nat) (h : cgToArm64 rd ≠ 31) : (afterChunk rd imm k s).get (cgToArm64 rd) =
    if chunk imm k ≠ 0 then chunkValue imm k else s.get (cgToArm64 rd) := by
  unfold afterChunk
  split
  · exact A64.get_set_self h
  · rfl

theorem afterChunk_sp (imm : BitVec 64) (k : Nat) : (afterChunk rd imm k s).sp = s.sp := by
  unfold afterChunk
  split
  · exact A64.set_sp ..
  · rfl

theorem arm64_mov_iff (rd : CGReg) (imm : BitVec 64) :
    arm64ImmTarget.Exact (.mov rd imm) ↔ Arm64ImmFits (.mov rd imm) := by
  refine (ImmTarget.exact_iff arm64ImmTarget (.mov rd imm) (afterMov rd imm) (arm64_mov_run rd imm)).trans ?_
  show (∀ s : A64.State, arm64ImmTarget.reg (afterMov rd imm s) rd = imm) ↔ _ ∧ _
  unfold afterMov
  by_cases hsp : rd = cgRegSp
  · subst hsp
    refine iff_of_false (fun h => ?_) fun h => h.1 rfl
    -- The stack pointer is as it was.
    simp only [arm64Imm_reg_sp, afterChunk_sp, A64.set_sp] at h
    have hsame : (0 : BitVec 64) = 1 := (h (arm64Filled 0 0)).trans (h (arm64Filled 0 1)).symm
    exact absurd hsame (by decide)
  rw [and_iff_right hsp]
  by_cases hxzr : rd = cgRegXzr
  · subst hxzr
    simp only [arm64Imm_reg_xzr, if_true]
    exact ⟨fun h => (h (arm64Filled 0 0)).symm, fun h _ => h.symm⟩
  · have hne : cgToArm64 rd ≠ 31 := fun he => ((cgToArm64_31 rd).1 he).elim hsp hxzr
    simp only [if_neg hxzr, arm64Imm_reg hsp, afterChunk_get _ _ hne, A64.get_set_self hne]
    rw [← arm64Left_iff]
    exact ⟨fun h => h (arm64Filled 0 0), fun h _ => h⟩

/-! ### Sums and differences -/

theorem sumDiff_left_inj {sub : Bool} {a a' b : BitVec 64} : A64.sumDiff sub a b = A64.sumDiff sub a' b ↔ a = a' := by
  cases sub <;> simp [A64.sumDiff]

theorem sumDiff_right_inj {sub : Bool} {a b b' : BitVec 64} : A64.sumDiff sub a b = A64.sumDiff sub a b' ↔ b = b' := by
  cases sub <;> simp [A64.sumDiff]

/-- The two calls. -/
def ImmCall.sum (sub : Bool) (rd rn : CGReg) (imm : BitVec 32) : ImmCall := if sub then .sub rd rn imm else .add rd rn imm

theorem ImmCall.sum_result (sub : Bool) (rd rn : CGReg) (imm : BitVec 32) (v : CGReg → BitVec 64) :
    (ImmCall.sum sub rd rn imm).result v = A64.sumDiff sub (v rn) (imm.setWidth 64) := by
  cases sub <;> rfl

theorem ImmCall.sum_dst (sub : Bool) (rd rn : CGReg) (imm : BitVec 32) : (ImmCall.sum sub rd rn imm).dst = rd := by
  cases sub <;> rfl

/-- A small constant is in the word, where the register with the number 31 is the stack pointer. -/
theorem arm64_small_run (sub : Bool) (rd rn : CGReg) {imm : BitVec 32} (hlt : imm.toNat ≤ 0xFFF) (s : A64.State) :
    A64.execAny ((ImmCall.sum sub rd rn imm).code arm64ImmTarget.vt) s =
      some (s.setSp (cgToArm64 rd) (A64.sumDiff sub (s.getSp (cgToArm64 rn)) (imm.setWidth 64))) := by
  have himm : (imm.setWidth 16).toNat = imm.toNat := (BitVec.toNat_setWidth ..).trans (Nat.mod_eq_of_lt (by omega))
  have hcode : (ImmCall.sum sub rd rn imm).code arm64ImmTarget.vt =
      warm64Imm12 (if sub then 0xD1000000 else 0x91000000) (cgToArm64 rd) (cgToArm64 rn) (imm.setWidth 16) 1 := by
    cases sub <;> exact if_pos hlt
  have henc := arm64_encodes_addSub sub (cgToArm64 rd) (cgToArm64 rn) (show (imm.setWidth 16).toNat < 2 ^ 12 by omega)
  rw [hcode, A64.execAny, henc.exec_one, himm, ← BitVec.ofNat_toNat 64 imm]
  rfl

/-- `X10` has the lower chunk, and `X11` the upper one. -/
def arm64Loaded (imm : BitVec 32) (s : A64.State) : A64.State :=
  (s.set wregX10 (.ofNat 64 (imm.toNat % 2 ^ 16))).set wregX11 (BitVec.ofNat 64 (imm.toNat / 2 ^ 16) <<< 16)

theorem arm64_large_run (sub : Bool) (rd rn : CGReg) {imm : BitVec 32} (hlt : ¬imm.toNat ≤ 0xFFF) (s : A64.State) :
    A64.execAny ((ImmCall.sum sub rd rn imm).code arm64ImmTarget.vt) s = some ((arm64Loaded imm s).set (cgToArm64 rd)
      (A64.sumDiff sub ((arm64Loaded imm s).get (cgToArm64 rn)) (.ofNat 64 (imm.toNat % 2 ^ 16)))) := by
  have hlo : ((imm &&& 0xFFFF).setWidth 16).toNat = imm.toNat % 2 ^ 16 := by
    have hmask := Nat.and_two_pow_sub_one_eq_mod imm.toNat 16
    rw [BitVec.toNat_setWidth, BitVec.toNat_and]
    exact (congrArg (· % 2 ^ 16) hmask).trans (Nat.mod_mod _ _)
  have hhi : ((imm >>> 16 &&& 0xFFFF).setWidth 16).toNat = imm.toNat / 2 ^ 16 := by
    have hmask := Nat.and_two_pow_sub_one_eq_mod (imm.toNat / 2 ^ 16) 16
    rw [BitVec.toNat_setWidth, BitVec.toNat_and, BitVec.toNat_ushiftRight, Nat.shiftRight_eq_div_pow]
    exact (congrArg (· % 2 ^ 16) hmask).trans (by omega)
  have h10 := arm64_encodes_movz wregX10 ((imm &&& 0xFFFF).setWidth 16) (show 0 < 4 by decide)
  have h11 := arm64_encodes_movz wregX11 ((imm >>> 16 &&& 0xFFFF).setWidth 16) (show 1 < 4 by decide)
  rw [hlo] at h10
  rw [hhi] at h11
  have hx10 : (arm64Loaded imm s).get wregX10 = .ofNat 64 (imm.toNat % 2 ^ 16) := by
    rw [arm64Loaded, A64.get_set_of_ne (by decide), A64.get_set_self (by decide)]
  have hcode : (ImmCall.sum sub rd rn imm).code arm64ImmTarget.vt = arm64LoadImm imm ++
      warm64ThreeReg (if sub then 0xCB000000 else 0x8B000000) (cgToArm64 rd) (cgToArm64 rn) wregX10 1 := by
    cases sub <;> exact if_neg hlt
  have halu : A64.Encodes (warm64ThreeReg (if sub then 0xCB000000 else 0x8B000000) (cgToArm64 rd) (cgToArm64 rn) wregX10 1)
      [.alu (if sub then .sub else .add) (cgToArm64 rd) (cgToArm64 rn) wregX10] := by
    cases sub with
    | true => exact arm64_encodes_alu 0xCB000000 0x658 _ _ _ (by decide) rfl (by decide) (by decide)
    | false => exact arm64_encodes_alu 0x8B000000 0x458 _ _ _ (by decide) rfl (by decide) (by decide)
  have hload : MachineCode.run A64.stepAny
      [.inr (.movz wregX10 (imm.toNat % 2 ^ 16) 0), .inr (.movz wregX11 (imm.toNat / 2 ^ 16) 1)] s =
        some (arm64Loaded imm s) := by
    show some ((s.set wregX10 (BitVec.ofNat 64 (imm.toNat % 2 ^ 16) <<< (16 * 0))).set wregX11 _) = _
    rw [Nat.mul_zero, BitVec.shiftLeft_zero]
    rfl
  have henc := (h10.append h11).append (encodes_inl halu)
  rw [hcode, A64.execAny, arm64LoadImm, henc.exec, MachineCode.run_append]
  refine (congrArg (Option.bind · _) hload).trans ?_
  rw [← hx10]
  cases sub <;> rfl

theorem getSp_eq (h : rn ≠ cgRegXzr) : s.getSp (cgToArm64 rn) = arm64ImmTarget.reg s rn := by
  by_cases hsp : rn = cgRegSp
  · subst hsp
    rfl
  · have hne : cgToArm64 rn ≠ 31 := fun he => ((cgToArm64_31 rn).1 he).elim hsp h
    rw [arm64Imm_reg hsp, A64.State.getSp, A64.State.get, if_neg hne, if_neg hne]

theorem reg_setSp (s : A64.State) (v : BitVec 64) (h : rd ≠ cgRegXzr) :
    arm64ImmTarget.reg (s.setSp (cgToArm64 rd) v) rd = v := by
  by_cases hsp : rd = cgRegSp
  · subst hsp
    rfl
  · have hne : cgToArm64 rd ≠ 31 := fun he => ((cgToArm64_31 rd).1 he).elim hsp h
    rw [arm64Imm_reg hsp, A64.State.setSp, A64.State.get, if_neg hne, if_neg hne]
    exact Function.update_self ..

/-- What is read through the zero register is the same in all states. -/
theorem arm64_xzr_inexact {f : A64.State → BitVec 64} {rn : CGReg} {sub : Bool} {imm : BitVec 64} (hsp : rn ≠ cgRegXzr)
    (hf : f (arm64Filled 0 0) = f (arm64Filled 1 1)) :
    ¬∀ s : A64.State, f s = A64.sumDiff sub (arm64ImmTarget.reg s rn) imm := fun h => by
  have hsame := (h (arm64Filled 0 0)).symm.trans (hf.trans (h (arm64Filled 1 1)))
  have hreg : ∀ a, arm64ImmTarget.reg (arm64Filled a a) rn = a := fun a => by
    by_cases h : rn = cgRegSp
    · rw [h, arm64Imm_reg_sp]
      rfl
    · exact arm64Filled_reg a a h hsp
  rw [hreg, hreg, sumDiff_left_inj] at hsame
  exact absurd hsame (by decide)

theorem arm64Loaded_get (imm : BitVec 32) (s : A64.State) (h : rn ∉ arm64ImmTarget.scratch) :
    (arm64Loaded imm s).get (cgToArm64 rn) = s.get (cgToArm64 rn) := by
  obtain ⟨h10, h11⟩ := cgToArm64_scratch rn h
  rw [arm64Loaded, A64.get_set_of_ne h11, A64.get_set_of_ne h10]

theorem arm64Loaded_sp (imm : BitVec 32) (s : A64.State) : (arm64Loaded imm s).sp = s.sp := by
  rw [arm64Loaded, A64.set_sp, A64.set_sp]

theorem ofNat_chunk_iff (imm : BitVec 32) :
    BitVec.ofNat 64 (imm.toNat % 2 ^ 16) = imm.setWidth 64 ↔ imm.toNat ≤ 0xFFFF := by
  rw [← BitVec.toNat_inj, BitVec.toNat_ofNat, BitVec.toNat_setWidth]
  omega

theorem arm64_small_iff (sub : Bool) {rd rn : CGReg} {imm : BitVec 32} (hne : rd ≠ rn) (hlt : imm.toNat ≤ 0xFFF) :
    arm64ImmTarget.Exact (.sum sub rd rn imm) ↔ rd ≠ cgRegXzr ∧ rn ≠ cgRegXzr := by
  refine (ImmTarget.exact_iff arm64ImmTarget _ _ (arm64_small_run sub rd rn hlt)).trans ?_
  show (∀ s : A64.State, arm64ImmTarget.reg (s.setSp ..) _ = ImmCall.result (arm64ImmTarget.reg s) _) ↔ _
  simp only [ImmCall.sum_dst, ImmCall.sum_result]
  by_cases hxd : rd = cgRegXzr
  · subst hxd
    exact iff_of_false (arm64_xzr_inexact (Ne.symm hne) rfl) fun h => h.1 rfl
  simp only [reg_setSp _ _ hxd, sumDiff_left_inj]
  by_cases hxn : rn = cgRegXzr
  · subst hxn
    refine iff_of_false (fun h => ?_) fun h => h.2 rfl
    exact absurd (h (arm64Filled 1 1)) (by decide)
  · exact iff_of_true (fun s => getSp_eq hxn) ⟨hxd, hxn⟩

theorem arm64_large_iff (sub : Bool) {rd rn : CGReg} {imm : BitVec 32} (hne : rd ≠ rn)
    (hn : rn ∉ arm64ImmTarget.scratch) (hlt : ¬imm.toNat ≤ 0xFFF) :
    arm64ImmTarget.Exact (.sum sub rd rn imm) ↔ imm.toNat ≤ 0xFFFF ∧ rd ≠ cgRegSp ∧ rd ≠ cgRegXzr ∧ rn ≠ cgRegSp := by
  refine (ImmTarget.exact_iff arm64ImmTarget _ _ (arm64_large_run sub rd rn hlt)).trans ?_
  show (∀ s : A64.State, arm64ImmTarget.reg (A64.State.set ..) _ = ImmCall.result (arm64ImmTarget.reg s) _) ↔ _
  simp only [ImmCall.sum_dst, ImmCall.sum_result, arm64Loaded_get imm _ hn]
  by_cases hxd : rd = cgRegXzr
  · subst hxd
    exact iff_of_false (arm64_xzr_inexact (Ne.symm hne) rfl) fun h => h.2.2.1 rfl
  by_cases hsd : rd = cgRegSp
  · subst hsd
    refine iff_of_false (fun h => ?_) fun h => h.2.1 rfl
    -- The sum is lost, and the stack pointer as it was.
    simp only [arm64Imm_reg_sp, A64.set_sp, arm64Loaded_sp, arm64Imm_reg (Ne.symm hne)] at h
    have hsame : (0 : BitVec 64) = 1 := (h (arm64Filled 0 0)).trans (h (arm64Filled 0 1)).symm
    exact absurd hsame (by decide)
  have hreg : ∀ (s : A64.State) (v : BitVec 64), arm64ImmTarget.reg (s.set (cgToArm64 rd) v) rd = v := fun s v => by
    rw [arm64Imm_reg hsd]
    exact A64.get_set_self fun he => ((cgToArm64_31 rd).1 he).elim hsd hxd
  simp only [hreg]
  by_cases hsn : rn = cgRegSp
  · subst hsn
    refine iff_of_false (fun h => ?_) fun h => h.2.2.2 rfl
    -- The zero register is read in place of the stack pointer.
    have hsame := (h (arm64Filled 0 0)).symm.trans (h (arm64Filled 0 1))
    rw [sumDiff_left_inj] at hsame
    exact absurd hsame (by decide)
  · simp only [arm64Imm_reg hsn, sumDiff_right_inj, ofNat_chunk_iff]
    exact ⟨fun h => ⟨h (arm64Filled 0 0), hsd, hxd, hsn⟩, fun h _ => h.1⟩

theorem arm64_sum_iff (sub : Bool) (rd rn : CGReg) (imm : BitVec 32) (hne : rd ≠ rn)
    (hn : rn ∉ arm64ImmTarget.scratch) : arm64ImmTarget.Exact (.sum sub rd rn imm) ↔ Arm64SumFits rd rn imm := by
  unfold Arm64SumFits
  by_cases hlt : imm.toNat ≤ 0xFFF
  · rw [arm64_small_iff sub hne hlt, or_iff_left (by omega), and_iff_right hlt]
  · rw [arm64_large_iff sub hne hn hlt, or_iff_right fun h => hlt h.1, and_iff_right (Nat.lt_of_not_le hlt)]

theorem arm64_exact_iff {c : ImmCall} (h : arm64ImmTarget.Admits c) : arm64ImmTarget.Exact c ↔ Arm64ImmFits c := by
  cases c with
  | mov rd imm => exact arm64_mov_iff rd imm
  | add rd rn imm => exact arm64_sum_iff false rd rn imm h.1 h.2.2
  | sub rd rn imm => exact arm64_sum_iff true rd rn imm h.1 h.2.2

end

/-! ## RV64: what the words mean -/

theorem rv64_encodes_addi (rd rs : RV64Reg) (imm : BitVec 16) :
    Rv64.EncodesAny (rv64Addi rd rs imm) [.inl (.imm .addi rd rs (imm.setWidth 12))] := by
  have hmod : imm.toNat % 2 ^ 12 < 2 ^ 12 := Nat.mod_lt _ (by decide)
  have himm : (BitVec.ofNat 16 (imm.toNat % 2 ^ 12)).toNat &&& 0xFFF = imm.toNat &&& 0xFFF := by
    rw [BitVec.toNat_ofNat, Nat.mod_eq_of_lt (show imm.toNat % 2 ^ 12 < 2 ^ 16 by omega)]
    exact (mask hmod).trans (Nat.and_two_pow_sub_one_eq_mod _ 12).symm
  have hword : rvIType imm rs rvF3Add rd rvOpOpImm = rvIType (.ofNat 16 (imm.toNat % 2 ^ 12)) rs rvF3Add rd rvOpOpImm := by
    rw [rvIType, rvIType, himm]
  have hset : imm.setWidth 12 = .ofNat 12 (imm.toNat % 2 ^ 12) := by
    rw [← BitVec.toNat_inj, BitVec.toNat_setWidth, BitVec.toNat_ofNat, Nat.mod_mod]
  rw [rv64Addi, hword, hset]
  exact encodes_inl (rv64_encodes_imm rd rs rfl hmod (by decide) (by decide))

theorem rv64_encodes_lui (rd : RV64Reg) (imm20 : BitVec 32) :
    Rv64.EncodesAny (rv64Lui rd imm20) [.inr (.lui rd (imm20.setWidth 20))] := by
  have hmod : imm20.toNat % 2 ^ 20 < 2 ^ 20 := Nat.mod_lt _ (by decide)
  have himm : ((imm20 &&& 0xFFFFF) <<< 12).toNat = imm20.toNat % 2 ^ 20 * 2 ^ 12 := by
    have hand : imm20.toNat &&& 0xFFFFF = imm20.toNat % 2 ^ 20 := Nat.and_two_pow_sub_one_eq_mod _ 20
    have hmask : (imm20 &&& 0xFFFFF).toNat = imm20.toNat % 2 ^ 20 := (BitVec.toNat_and ..).trans hand
    rw [BitVec.toNat_shiftLeft, hmask, Nat.shiftLeft_eq]
    exact Nat.mod_eq_of_lt (by omega)
  have hword : ((imm20 &&& 0xFFFFF) <<< 12).toNat ||| (rd.val &&& 0x1F) <<< 7 ||| rvOpLui =
      imm20.toNat % 2 ^ 20 * 2 ^ 12 + rd.val * 2 ^ 7 + 0x37 := by
    rw [himm, maskReg, or_shift (n := 5) (by omega) rd.isLt, or_low (n := 7) (by omega) (by decide)]
  have hset : imm20.setWidth 20 = .ofNat 20 (imm20.toNat % 2 ^ 20) := by
    rw [← BitVec.toNat_inj, BitVec.toNat_setWidth, BitVec.toNat_ofNat, Nat.mod_mod]
  rw [rv64Lui, hword, hset]
  exact Rv64.encodes_lui hmod rd.isLt

/-! ## RV64: what is left -/

section

variable {s : Rv64.State} {rd rn : CGReg}

theorem cgToRv64_ne (r : CGReg) : cgToRv64 r ≠ 0 := by
  revert r
  decide

theorem cgToRv64_scratch (r : CGReg) (h : r ∉ rv64ImmTarget.scratch) : cgToRv64 r ≠ rvT6 := by
  revert r
  decide

/-! ### Constants -/

/-- The lower bits, with their sign. -/
def rv64Lo (imm : BitVec 64) : BitVec 32 :=
  let lo : BitVec 32 := (imm &&& 0xFFF).setWidth 32
  if lo &&& 0x800 ≠ 0 then lo ||| ~~~0xFFF else lo

def rv64Hi (imm : BitVec 64) : BitVec 32 := (imm.sshiftRight 12 &&& 0xFFFFF).setWidth 32

theorem rv64Li_eq (rd : RV64Reg) (imm : BitVec 64) : rv64Li rd imm = if rv64Hi imm ≠ 0 then
      rv64Lui rd (rv64Hi imm <<< 12) ++ if rv64Lo imm ≠ 0 then rv64Addi rd rd ((rv64Lo imm).setWidth 16) else []
    else rv64Addi rd rvX0 ((rv64Lo imm).setWidth 16) := rfl

theorem rv64Hi_toNat (imm : BitVec 64) : (rv64Hi imm).toNat = imm.toNat / 2 ^ 12 % 2 ^ 20 := by
  have heq : rv64Hi imm = ((imm >>> 12).setWidth 20).setWidth 32 := by
    refine BitVec.eq_of_getLsbD_eq fun i hi => ?_
    have hmask : (0xFFFFF : BitVec 64).getLsbD i = decide (i < 20) := by
      have hall : ∀ i : Fin 32, (0xFFFFF : BitVec 64).getLsbD i = decide (i.val < 20) := by decide
      exact hall ⟨i, hi⟩
    rw [rv64Hi, BitVec.getLsbD_setWidth, BitVec.getLsbD_and, hmask, BitVec.getLsbD_sshiftRight, BitVec.getLsbD_setWidth,
      BitVec.getLsbD_setWidth, BitVec.getLsbD_ushiftRight, if_pos (show 12 + i < 64 by omega)]
    simp [show ¬64 ≤ i by omega, Bool.and_comm]
  rw [heq, BitVec.toNat_setWidth, BitVec.toNat_setWidth, BitVec.toNat_ushiftRight, Nat.shiftRight_eq_div_pow]
  exact Nat.mod_eq_of_lt (by omega)

/-- The sign does not come into the 12 bits of the word. -/
theorem rv64Lo_low (imm : BitVec 64) : ((rv64Lo imm).setWidth 16).setWidth 12 = imm.setWidth 12 := by
  refine BitVec.eq_of_getLsbD_eq fun i hi => ?_
  have hmask : (0xFFF : BitVec 64).getLsbD i = true ∧ (0xFFF : BitVec 32).getLsbD i = true := by
    have hall : ∀ i : Fin 12, (0xFFF : BitVec 64).getLsbD i = true ∧ (0xFFF : BitVec 32).getLsbD i = true := by decide
    exact hall ⟨i, hi⟩
  have hlo : ((imm &&& 0xFFF).setWidth 32).getLsbD i = imm.getLsbD i := by
    rw [BitVec.getLsbD_setWidth, BitVec.getLsbD_and, hmask.1, Bool.and_true, decide_eq_true (show i < 32 by omega), Bool.true_and]
  have hbit : (rv64Lo imm).getLsbD i = imm.getLsbD i := by
    unfold rv64Lo
    dsimp only
    split
    · rw [BitVec.getLsbD_or, BitVec.getLsbD_not, hmask.2, hlo]
      simp
    · exact hlo
  simp only [BitVec.getLsbD_setWidth, hbit, hi, show i < 16 by omega, decide_true, Bool.true_and]

/-- What an `addi` adds. -/
def low12 (imm : BitVec 64) : BitVec 64 := (imm.setWidth 12).signExtend 64

theorem low12_toNat (imm : BitVec 64) : (low12 imm).toNat =
    imm.toNat % 2 ^ 12 + if 2 ^ 11 ≤ imm.toNat % 2 ^ 12 then 2 ^ 64 - 2 ^ 12 else 0 := by
  rw [low12, BitVec.toNat_signExtend, BitVec.toNat_setWidth, BitVec.msb_eq_decide, BitVec.toNat_setWidth]
  have hmod : imm.toNat % 2 ^ 12 % 2 ^ 64 = imm.toNat % 2 ^ 12 := Nat.mod_eq_of_lt (by omega)
  rw [hmod]
  simp only [decide_eq_true_eq]

/-- Of the upper bits only 8 are left, 12 places too high. -/
theorem upper_toNat (hi : BitVec 32) : (Rv64.upper ((hi <<< 12).setWidth 20)).toNat =
    hi.toNat % 2 ^ 8 * 2 ^ 24 + if 2 ^ 7 ≤ hi.toNat % 2 ^ 8 then 2 ^ 64 - 2 ^ 32 else 0 := by
  have hval : (((hi <<< 12).setWidth 20).setWidth 32 <<< 12).toNat = hi.toNat % 2 ^ 8 * 2 ^ 24 := by
    rw [BitVec.toNat_shiftLeft, BitVec.toNat_setWidth, BitVec.toNat_setWidth, BitVec.toNat_shiftLeft, Nat.shiftLeft_eq,
      Nat.shiftLeft_eq]
    omega
  have hmod : hi.toNat % 2 ^ 8 * 2 ^ 24 % 2 ^ 64 = hi.toNat % 2 ^ 8 * 2 ^ 24 := Nat.mod_eq_of_lt (by omega)
  have hmsb : 2 ^ (32 - 1) ≤ hi.toNat % 2 ^ 8 * 2 ^ 24 ↔ 2 ^ 7 ≤ hi.toNat % 2 ^ 8 := by omega
  rw [Rv64.upper, BitVec.toNat_signExtend, BitVec.toNat_setWidth, BitVec.msb_eq_decide, hval, hmod]
  simp only [decide_eq_true_eq, hmsb]

/-- What `rv64Li` leaves. -/
def rv64Left (imm : BitVec 64) : BitVec 64 :=
  if rv64Hi imm ≠ 0 then Rv64.upper ((rv64Hi imm <<< 12).setWidth 20) + low12 imm else low12 imm

theorem rv64LiFits_iff (imm : BitVec 64) : Rv64LiFits imm ↔
    imm.toNat < 2 ^ 11 ∨ 2 ^ 64 - (2 ^ 24 + 2 ^ 11) ≤ imm.toNat ∧ imm.toNat < 2 ^ 64 - 2 ^ 24 := by
  rw [Rv64LiFits, BitVec.toInt_eq_toNat_cond]
  split <;> omega

theorem rv64Left_iff (imm : BitVec 64) : rv64Left imm = imm ↔ Rv64LiFits imm := by
  have hhi : rv64Hi imm ≠ 0 ↔ imm.toNat / 2 ^ 12 % 2 ^ 20 ≠ 0 := by
    rw [← rv64Hi_toNat, ne_eq, ne_eq, ← BitVec.toNat_inj]
    rfl
  rw [rv64LiFits_iff, ← BitVec.toNat_inj]
  unfold rv64Left
  simp only [apply_ite BitVec.toNat, hhi, BitVec.toNat_add, low12_toNat, upper_toNat, rv64Hi_toNat]
  split
  · split <;> split <;> omega
  · split <;> omega

theorem rv64_li_run {r : RV64Reg} (hr : r ≠ 0) (imm : BitVec 64) : ∃ is, Rv64.EncodesAny (rv64Li r imm) is ∧
      ∀ s, ∃ t, MachineCode.run Rv64.stepAny is s = some t ∧ t.get r = rv64Left imm ∧ ∀ r' ≠ r, t.get r' = s.get r' := by
  have haddi : ∀ rs, Rv64.EncodesAny (rv64Addi r rs ((rv64Lo imm).setWidth 16)) [.inl (.imm .addi r rs (imm.setWidth 12))] := by
    intro rs
    rw [← rv64Lo_low imm]
    exact rv64_encodes_addi ..
  have hlui := rv64_encodes_lui r (rv64Hi imm <<< 12)
  rw [rv64Li_eq]
  unfold rv64Left
  split
  · split
    · refine ⟨_, hlui.append (haddi r), fun s => ⟨_, rfl, ?_, fun r' hne => ?_⟩⟩
      · rw [Rv64.get_set_self hr, Rv64.get_set_self hr]
        rfl
      · rw [Rv64.get_set_of_ne hne, Rv64.get_set_of_ne hne]
    · rename_i hlo
      have hzero : low12 imm = 0#64 := by
        rw [low12, ← rv64Lo_low, not_not.1 hlo]
        rfl
      rw [hzero, BitVec.add_zero, List.append_nil]
      exact ⟨_, hlui, fun s => ⟨_, rfl, Rv64.get_set_self hr, fun r' hne => Rv64.get_set_of_ne hne⟩⟩
  · refine ⟨_, haddi rvX0, fun s => ⟨_, rfl, ?_, fun r' hne => Rv64.get_set_of_ne hne⟩⟩
    rw [Rv64.get_set_self hr]
    exact BitVec.zero_add _

theorem rv64_mov_iff (rd : CGReg) (imm : BitVec 64) :
    rv64ImmTarget.Exact (.mov rd imm) ↔ Rv64ImmFits (.mov rd imm) := by
  obtain ⟨is, henc, hrun⟩ := rv64_li_run (cgToRv64_ne rd) imm
  choose f hf hleft using hrun
  have hcode : ∀ s, rv64ImmTarget.exec ((ImmCall.mov rd imm).code rv64ImmTarget.vt) s = some (f s) := fun s =>
    (henc.exec s).trans (hf s)
  refine (ImmTarget.exact_iff rv64ImmTarget _ f hcode).trans ?_
  show (∀ s : Rv64.State, (f s).get (cgToRv64 rd) = imm) ↔ Rv64LiFits imm
  simp only [(hleft _).1]
  rw [← rv64Left_iff]
  exact ⟨fun h => h ⟨fun _ => 0⟩, fun h _ => h⟩

/-! ### Sums and differences -/

/-- A sum of a register and what depends on no register. -/
theorem rv64_add_exact {c : ImmCall} {f : Rv64.State → Rv64.State} {v w : BitVec 64}
    (hrun : ∀ s, Rv64.execAny (c.code rv64ImmTarget.vt) s = some (f s))
    (hf : ∀ s, (f s).get (cgToRv64 c.dst) = s.get (cgToRv64 rn) + v)
    (hc : ∀ s, c.result (rv64ImmTarget.reg s) = s.get (cgToRv64 rn) + w) : rv64ImmTarget.Exact c ↔ v = w := by
  have hiff : ∀ s : Rv64.State, (f s).get (cgToRv64 c.dst) = c.result (rv64ImmTarget.reg s) ↔ v = w := fun s => by
    rw [hf]
    exact (Eq.congr_right (hc s)).trans (BitVec.add_right_inj _)
  refine (ImmTarget.exact_iff rv64ImmTarget c f hrun).trans ?_
  exact ⟨fun h => (hiff _).mp (h (⟨fun _ => 0⟩ : Rv64.State)), fun h s => (hiff s).2 h⟩

theorem rv64_addi_iff (c : ImmCall) (rn : CGReg) (imm : BitVec 16) (w : BitVec 64)
    (hcode : c.code rv64ImmTarget.vt = rv64Addi (cgToRv64 c.dst) (cgToRv64 rn) imm)
    (hc : ∀ s, c.result (rv64ImmTarget.reg s) = s.get (cgToRv64 rn) + w) :
    rv64ImmTarget.Exact c ↔ (imm.setWidth 12).signExtend 64 = w := by
  have hrun : ∀ s, Rv64.execAny (c.code rv64ImmTarget.vt) s =
      some (s.set (cgToRv64 c.dst) (s.get (cgToRv64 rn) + (imm.setWidth 12).signExtend 64)) := fun s => by
    rw [hcode]
    exact (rv64_encodes_addi ..).exec_one s
  exact rv64_add_exact hrun (fun s => Rv64.get_set_self (cgToRv64_ne _)) hc

/-- The constant is in `T6`. -/
theorem rv64_large_run (sub : Bool) (rd : CGReg) (hn : rn ∉ rv64ImmTarget.scratch) (imm : BitVec 64) :
    ∃ f : Rv64.State → Rv64.State, ∀ s,
      Rv64.execAny (rv64Li rvT6 imm ++ (if sub then rv64Sub else rv64Add) (cgToRv64 rd) (cgToRv64 rn) rvT6) s = some (f s) ∧
        (f s).get (cgToRv64 rd) = s.get (cgToRv64 rn) + if sub then -rv64Left imm else rv64Left imm := by
  obtain ⟨is, henc, hli⟩ := rv64_li_run (r := rvT6) (by decide) imm
  choose u hu hleft using hli
  have hop : Rv64.Encodes ((if sub then rv64Sub else rv64Add) (cgToRv64 rd) (cgToRv64 rn) rvT6)
      [.op (if sub then .sub else .add) (cgToRv64 rd) (cgToRv64 rn) rvT6] := by
    cases sub <;> exact rv64_encodes_op _ _ _ rfl (by decide) (by decide)
  refine ⟨fun s => (u s).set (cgToRv64 rd)
    ((if sub then Rv64.Op.sub else .add).apply ((u s).get (cgToRv64 rn)) ((u s).get rvT6)), fun s => ⟨?_, ?_⟩⟩
  · rw [Rv64.execAny, (henc.append (encodes_inl hop)).exec, MachineCode.run_append, hu]
    rfl
  · rw [Rv64.get_set_self (cgToRv64_ne rd), (hleft s).1, (hleft s).2 _ (cgToRv64_scratch rn hn)]
    cases sub
    · rfl
    · exact BitVec.sub_eq_add_neg ..

theorem rv64_large_inexact (sub : Bool) (rd : CGReg) (hn : rn ∉ rv64ImmTarget.scratch) {imm : BitVec 32}
    (himm : 2 ^ 11 ≤ imm.toNat)
    (hcode : (ImmCall.sum sub rd rn imm).code rv64ImmTarget.vt =
      rv64Li rvT6 (imm.setWidth 64) ++ (if sub then rv64Sub else rv64Add) (cgToRv64 rd) (cgToRv64 rn) rvT6) :
    ¬rv64ImmTarget.Exact (.sum sub rd rn imm) := by
  obtain ⟨f, hf⟩ := rv64_large_run sub rd hn (imm.setWidth 64)
  have hrun : ∀ s, Rv64.execAny ((ImmCall.sum sub rd rn imm).code rv64ImmTarget.vt) s = some (f s) := fun s => by
    rw [hcode]
    exact (hf s).1
  have hres : ∀ s, (ImmCall.sum sub rd rn imm).result (rv64ImmTarget.reg s) =
      s.get (cgToRv64 rn) + if sub then -imm.setWidth 64 else imm.setWidth 64 := fun s => by
    rw [ImmCall.sum_result]
    cases sub
    · rfl
    · exact BitVec.sub_eq_add_neg ..
  have hdst : ∀ s, (f s).get (cgToRv64 (ImmCall.sum sub rd rn imm).dst) =
      s.get (cgToRv64 rn) + if sub then -rv64Left (imm.setWidth 64) else rv64Left (imm.setWidth 64) := fun s => by
    rw [ImmCall.sum_dst]
    exact (hf s).2
  rw [rv64_add_exact hrun hdst hres]
  -- The constant is not negative, and too large for the other case of `Rv64LiFits`.
  have hleft : rv64Left (imm.setWidth 64) ≠ imm.setWidth 64 := by
    have hval : (imm.setWidth 64).toNat = imm.toNat := (BitVec.toNat_setWidth ..).trans (Nat.mod_eq_of_lt (by omega))
    rw [ne_eq, rv64Left_iff, rv64LiFits_iff, hval]
    omega
  cases sub
  · exact hleft
  · exact fun h => hleft (BitVec.neg_inj.1 h)

theorem rv64_add_iff (rd : CGReg) (hn : rn ∉ rv64ImmTarget.scratch) (imm : BitVec 32) :
    rv64ImmTarget.Exact (.add rd rn imm) ↔ imm.toNat < 2 ^ 11 := by
  by_cases hlt : imm.toNat ≤ 0xFFF
  · rw [rv64_addi_iff (.add rd rn imm) rn (imm.setWidth 16) (imm.setWidth 64) (if_pos hlt) fun s => rfl,
      ← BitVec.toNat_inj, BitVec.toNat_signExtend, BitVec.msb_eq_decide]
    simp only [BitVec.toNat_setWidth, decide_eq_true_eq]
    split <;> omega
  · exact iff_of_false (rv64_large_inexact false rd hn (by omega) (if_neg hlt)) (by omega)

theorem rv64_sub_iff (rd : CGReg) (hn : rn ∉ rv64ImmTarget.scratch) (imm : BitVec 32) :
    rv64ImmTarget.Exact (.sub rd rn imm) ↔ imm.toNat ≤ 2 ^ 11 := by
  by_cases hlt : imm.toNat ≤ 0x1000
  · rw [rv64_addi_iff (.sub rd rn imm) rn ((-imm).setWidth 16) (-imm.setWidth 64) (if_pos hlt) fun s =>
        BitVec.sub_eq_add_neg .., ← BitVec.toNat_inj, BitVec.toNat_signExtend, BitVec.msb_eq_decide]
    simp only [BitVec.toNat_setWidth, BitVec.toNat_neg, decide_eq_true_eq]
    split <;> omega
  · exact iff_of_false (rv64_large_inexact true rd hn (by omega) (if_neg hlt)) (by omega)

theorem rv64_exact_iff {c : ImmCall} (h : rv64ImmTarget.Admits c) : rv64ImmTarget.Exact c ↔ Rv64ImmFits c := by
  cases c with
  | mov rd imm => exact rv64_mov_iff rd imm
  | add rd rn imm => exact rv64_add_iff rd h.2.2 imm
  | sub rd rn imm => exact rv64_sub_iff rd h.2.2 imm

end

/-! ## Both back ends -/

inductive ImmBackend where
  | arm64 | rv64

def ImmBackend.target : ImmBackend → ImmTarget
  | .arm64 => arm64ImmTarget
  | .rv64 => rv64ImmTarget

def ImmBackend.Fits : ImmBackend → ImmCall → Prop
  | .arm64 => Arm64ImmFits
  | .rv64 => Rv64ImmFits

/-- **Which immediates are exact.** -/
theorem immediate_iff (b : ImmBackend) (c : ImmCall) (h : b.target.Admits c) : b.target.Exact c ↔ b.Fits c := by
  cases b with
  | arm64 => exact arm64_exact_iff h
  | rv64 => exact rv64_exact_iff h

/-- A constant in `X10`. -/
theorem immediate_iff_scratch :
    ImmBackend.arm64.target.Admits (.add 0 1 0x1234) ∧ ImmBackend.arm64.target.Exact (.add 0 1 0x1234) := by
  have hadm : ImmBackend.arm64.target.Admits (.add 0 1 0x1234) := by
    refine ⟨?_, ?_, ?_⟩ <;> decide
  refine ⟨hadm, (immediate_iff .arm64 _ hadm).2 (.inr ?_)⟩
  decide

/-- `0x12345` has two chunks, and the lower one is lost. -/
theorem arm64_chunk_lost : ¬∀ (b : ImmBackend) (c : ImmCall), b.target.Admits c → b.target.Exact c := by
  intro h
  have hmov : arm64ImmTarget.Exact (.mov 0 0x12345) := h .arm64 (.mov 0 0x12345) trivial
  rw [arm64_mov_iff] at hmov
  obtain ⟨k, hk, w, hw, he⟩ := hmov.2
  have hk : k = 0 ∨ k = 1 ∨ k = 2 ∨ k = 3 := by omega
  have hval : (0x12345 : BitVec 64).toNat = 0x12345 := rfl
  rw [hval] at he
  obtain rfl | rfl | rfl | rfl := hk <;> omega

end WuBuOS.CodeGen
