import Mathlib.Data.BitVec
import Mathlib.Tactic.IntervalCases
import WuBuOS.Lib.A64
import WuBuOS.Lib.Rv64

/-!
# Branches that are patched

A code generator emits a branch before it knows its target, and puts the distance in when it comes to the target:
`warm64_patch_branch` in `jit/wubu_arm64.c` and `rv64_patch_branch` in `jit/wubu_rv64.c`.  A patch emits the branch
anew (`Emitted.retarget_word`), so that it is enough to know what the words mean that the encoders emit.

The B-type words are right.  `rv_j_type` puts the bits of the distance in the wrong places (`immJ_rvJType`), and neither
function looks whether the distance fits.  `patched_iff` says when a patch is right.

Words are 32 bits, and the code buffer is a memory of bytes.
-/

namespace WuBuOS
namespace BranchPatch

open Rv64 (Comparison)

/-! ## The words -/

abbrev Word := BitVec 32

abbrev rvOpJal : Word := 0x6F
abbrev rvOpBranch : Word := 0x63

abbrev rvF3Beq : Word := 0x0
abbrev rvF3Bne : Word := 0x1
abbrev rvF3Blt : Word := 0x4
abbrev rvF3Bge : Word := 0x5

/-- `imm` is an `int16_t`. -/
def rvBType (imm : BitVec 16) (rs2 rs1 funct3 opcode : Word) : Word :=
  let off := (imm.sshiftRight 1).signExtend 32
  let b12 := off.sshiftRight 11 &&& 1
  let b11 := off.sshiftRight 10 &&& 1
  let b10_5 := off.sshiftRight 4 &&& 0x3F
  let b4_1 := off.sshiftRight 0 &&& 0xF
  b12 <<< 31 ||| b10_5 <<< 25 ||| (rs2 &&& 0x1F) <<< 20 ||| (rs1 &&& 0x1F) <<< 15 ||| (funct3 &&& 0x7) <<< 12 |||
    b4_1 <<< 8 ||| b11 <<< 7 ||| opcode

def rvJType (imm rd opcode : Word) : Word :=
  let off := imm.sshiftRight 1
  let j20 := off.sshiftRight 19 &&& 1
  let j10_1 := off.sshiftRight 9 &&& 0x3FF
  let j11 := off.sshiftRight 8 &&& 1
  let j19_12 := off.sshiftRight 0 &&& 0xFF
  j20 <<< 31 ||| j19_12 <<< 12 ||| j11 <<< 20 ||| j10_1 <<< 21 ||| (rd &&& 0x1F) <<< 7 ||| opcode

def rv64Beq (rs1 rs2 : Word) (off : BitVec 16) : Word := rvBType off rs2 rs1 rvF3Beq rvOpBranch

def rv64Bne (rs1 rs2 : Word) (off : BitVec 16) : Word := rvBType off rs2 rs1 rvF3Bne rvOpBranch

def rv64Blt (rs1 rs2 : Word) (off : BitVec 16) : Word := rvBType off rs2 rs1 rvF3Blt rvOpBranch

def rv64Bge (rs1 rs2 : Word) (off : BitVec 16) : Word := rvBType off rs2 rs1 rvF3Bge rvOpBranch

def rv64Jal (rd off : Word) : Word := rvJType off rd rvOpJal

def warm64BUncond (imm26 : Word) : Word := 0x14000000 ||| (imm26 &&& 0x3FFFFFF)

def warm64BCond (imm19 cc : Word) : Word := 0x54000000 ||| (imm19 &&& 0x7FFFF) <<< 5 ||| (cc &&& 0xF)

/-! ## The patch -/

/-- What `warm64_patch_branch` makes of a word that is `offset` in front of its target. -/
def warm64Retarget (offset : BitVec 64) (ins : Word) : Word :=
  if ins >>> 24 = 0x54 then
    let imm19 := (offset.sdiv 4).setWidth 32
    (ins &&& 0xFF00001F) ||| (imm19 &&& 0x7FFFF) <<< 5
  else if ins >>> 26 = 0x05 then
    let imm26 := (offset.sdiv 4).setWidth 32
    (ins &&& ~~~0x3FFFFFF) ||| (imm26 &&& 0x3FFFFFF)
  else ins

/-- What `rv64_patch_branch` makes of a word that is `offset` in front of its target. -/
def rv64Retarget (offset : BitVec 64) (ins : Word) : Word :=
  let offset := offset.setWidth 32
  let opcode := ins &&& 0x7F
  if opcode = rvOpBranch then
    rvBType (offset.setWidth 16) (ins >>> 20 &&& 0x1F) (ins >>> 15 &&& 0x1F) (ins >>> 12 &&& 0x7) rvOpBranch
  else if opcode = rvOpJal then rvJType offset (ins >>> 7 &&& 0x1F) rvOpJal
  else ins

/-- `WArm64Enc` and `RV64Enc`. -/
structure Enc where
  buf : Nat → UInt8
  pos : BitVec 64
  cap : BitVec 64

/-- The word at `pos`. -/
def Enc.word (e : Enc) (pos : BitVec 64) : Word := .ofNat 32 (Bytes.get e.buf pos.toNat 4)

/-- `rv64_emit`, and `warm64_emit_word` behind `ensure_cap`. -/
def emitWord (e : Enc) (w : Word) : Enc :=
  if e.pos + 4 ≤ e.cap then { e with buf := Bytes.put e.buf e.pos.toNat 4 w.toNat, pos := e.pos + 4 } else e

/-- `warm64_branch_pos` and `rv64_branch_pos`. -/
def branchPos (e : Enc) : BitVec 64 := e.pos - 4

/-- The two functions but for what they do to the word. -/
def patchBranch (retarget : BitVec 64 → Word → Word) (e : Enc) (pos target : BitVec 64) : Enc :=
  if e.pos < pos + 4 then e
  else { e with buf := Bytes.put e.buf pos.toNat 4 (retarget (target - pos) (e.word pos)).toNat }

def warm64PatchBranch : Enc → BitVec 64 → BitVec 64 → Enc := patchBranch warm64Retarget

def rv64PatchBranch : Enc → BitVec 64 → BitVec 64 → Enc := patchBranch rv64Retarget

/-! ## The bits of a `jal` -/

/-- What becomes of the distance of a `jal`, in units of two bytes. -/
def scramble (x : BitVec 20) : BitVec 20 :=
  x.extractLsb' 19 1 ++ x.extractLsb' 0 8 ++ x.extractLsb' 8 1 ++ x.extractLsb' 9 10

/-- Where a bit below the sign comes from. -/
def origin (i : Nat) : Nat := if i < 10 then i + 9 else if i = 10 then 8 else i - 11

theorem getLsbD_scramble (x : BitVec 20) {i : Nat} (hi : i < 19) : (scramble x).getLsbD i = x.getLsbD (origin i) := by
  simp only [scramble, BitVec.getLsbD_append, BitVec.getLsbD_extractLsb']
  interval_cases i <;> simp [origin]

/-- **The bits are moved in one circle**, all but the sign, so that those of a fixed point are the same. -/
theorem getLsbD_of_scramble_eq {x : BitVec 20} (h : scramble x = x) {i : Nat} (hi : i < 19) :
    x.getLsbD i = x.getLsbD 0 := by
  have hlt : ∀ n, origin^[n] 0 < 19 := by
    intro n
    induction n with
    | zero => decide
    | succ n ih =>
      rw [Function.iterate_succ_apply', origin]
      grind
  have hcircle : ∀ n, x.getLsbD (origin^[n] 0) = x.getLsbD 0 := by
    intro n
    induction n with
    | zero => rfl
    | succ n ih => rw [Function.iterate_succ_apply', ← getLsbD_scramble x (hlt n), h, ih]
  have hround : ∀ i : Fin 19, ∃ n : Fin 19, origin^[n] 0 = i := by decide
  obtain ⟨n, hn⟩ := hround ⟨i, hi⟩
  rw [← hcircle n, hn]

theorem scramble_eq_iff {x : BitVec 20} : scramble x = x ↔ x = 0 ∨ x = -1 ∨ x = 0x7FFFF ∨ x = 0x80000 := by
  constructor
  · intro h
    have hx : ∀ y : BitVec 20, y.getLsbD 19 = x.getLsbD 19 → (∀ i : Fin 19, y.getLsbD i = x.getLsbD 0) → x = y := by
      intro y htop hlow
      refine BitVec.eq_of_getLsbD_eq fun i hi => ?_
      rcases Nat.lt_or_eq_of_le (Nat.le_of_lt_succ hi) with hless | rfl
      · exact (getLsbD_of_scramble_eq h hless).trans (hlow ⟨i, hless⟩).symm
      · exact htop.symm
    cases htop : x.getLsbD 19 <;> cases hlow : x.getLsbD 0
    · exact .inl (hx _ (htop ▸ by decide) (hlow ▸ by decide))
    · exact .inr (.inr (.inl (hx _ (htop ▸ by decide) (hlow ▸ by decide))))
    · exact .inr (.inr (.inr (hx _ (htop ▸ by decide) (hlow ▸ by decide))))
    · exact .inr (.inl (hx _ (htop ▸ by decide) (hlow ▸ by decide)))
  · rintro (rfl | rfl | rfl | rfl) <;> decide

/-! ## What the words mean -/

section

variable (imm19 imm26 cc rd rs1 rs2 funct3 : Word) (imm : BitVec 16) (offset : BitVec 64)

theorem decode_warm64BUncond :
    A64.decodeBranch (warm64BUncond imm26) = some (.b, 4 * (imm26.extractLsb' 0 26).toInt) := by
  obtain ⟨hop, himm⟩ : (warm64BUncond imm26).extractLsb' 26 6 = 0x05 ∧
      (warm64BUncond imm26).extractLsb' 0 26 = imm26.extractLsb' 0 26 := by
    constructor <;>
    · refine BitVec.eq_of_getLsbD_eq fun i hi => ?_
      rw [warm64BUncond]
      interval_cases i <;> simp
  rw [A64.decodeBranch, if_pos hop, himm]

theorem decode_warm64BCond : A64.decodeBranch (warm64BCond imm19 cc) =
      some (.bcond (cc.extractLsb' 0 4), 4 * (imm19.extractLsb' 0 19).toInt) := by
  obtain ⟨hop, hzero, hcond, himm⟩ : (warm64BCond imm19 cc).extractLsb' 24 8 = 0x54 ∧
      (warm64BCond imm19 cc).extractLsb' 4 1 = 0 ∧ (warm64BCond imm19 cc).extractLsb' 0 4 = cc.extractLsb' 0 4 ∧
      (warm64BCond imm19 cc).extractLsb' 5 19 = imm19.extractLsb' 0 19 := by
    refine ⟨?_, ?_, ?_, ?_⟩ <;>
    · refine BitVec.eq_of_getLsbD_eq fun i hi => ?_
      rw [warm64BCond]
      interval_cases i <;> simp
  have hno : (warm64BCond imm19 cc).extractLsb' 26 6 ≠ 0x05 := by
    intro h
    have hbit := congrArg (·.getLsbD 4) h
    simp [warm64BCond] at hbit
  rw [A64.decodeBranch, if_neg hno, if_pos ⟨hop, hzero⟩, hcond, himm]

theorem immB_rvBType : Rv64.immB (rvBType imm rs2 rs1 funct3 rvOpBranch) = imm.extractLsb' 1 12 := by
  refine BitVec.eq_of_getLsbD_eq fun i hi => ?_
  rw [Rv64.immB, rvBType]
  simp only [BitVec.getLsbD_append, BitVec.getLsbD_extractLsb']
  interval_cases i <;> simp [BitVec.getElem_sshiftRight, BitVec.getElem_signExtend]

theorem immJ_rvJType (off : Word) : Rv64.immJ (rvJType off rd rvOpJal) = scramble (off.extractLsb' 1 20) := by
  refine BitVec.eq_of_getLsbD_eq fun i hi => ?_
  rw [Rv64.immJ, rvJType, scramble]
  simp only [BitVec.getLsbD_append, BitVec.getLsbD_extractLsb']
  interval_cases i <;> simp [BitVec.getElem_sshiftRight]

theorem decode_rvBType {c : Comparison} (h : Rv64.comparisonOf (funct3.extractLsb' 0 3) = some c) :
    Rv64.decodeBranch (rvBType imm rs2 rs1 funct3 rvOpBranch) =
      some (.cond c (rs1.extractLsb' 0 5) (rs2.extractLsb' 0 5), 2 * (imm.extractLsb' 1 12).toInt) := by
  obtain ⟨hop, hf3, hrs1, hrs2⟩ : (rvBType imm rs2 rs1 funct3 rvOpBranch).extractLsb' 0 7 = 0x63 ∧
      (rvBType imm rs2 rs1 funct3 rvOpBranch).extractLsb' 12 3 = funct3.extractLsb' 0 3 ∧
      (rvBType imm rs2 rs1 funct3 rvOpBranch).extractLsb' 15 5 = rs1.extractLsb' 0 5 ∧
      (rvBType imm rs2 rs1 funct3 rvOpBranch).extractLsb' 20 5 = rs2.extractLsb' 0 5 := by
    refine ⟨?_, ?_, ?_, ?_⟩ <;>
    · refine BitVec.eq_of_getLsbD_eq fun i hi => ?_
      rw [rvBType]
      interval_cases i <;> simp
  rw [Rv64.decodeBranch, if_pos hop, hf3, hrs1, hrs2, immB_rvBType, h]
  rfl

theorem decode_rvJType (off : Word) : Rv64.decodeBranch (rvJType off rd rvOpJal) =
      some (.jal (rd.extractLsb' 0 5), 2 * (scramble (off.extractLsb' 1 20)).toInt) := by
  obtain ⟨hop, hrd⟩ : (rvJType off rd rvOpJal).extractLsb' 0 7 = 0x6F ∧
      (rvJType off rd rvOpJal).extractLsb' 7 5 = rd.extractLsb' 0 5 := by
    constructor <;>
    · refine BitVec.eq_of_getLsbD_eq fun i hi => ?_
      rw [rvJType]
      interval_cases i <;> simp
  rw [Rv64.decodeBranch, if_neg (by rw [hop]; decide), if_pos hop, hrd, immJ_rvJType]

/-! ## A patch emits the branch anew -/

theorem warm64Retarget_bUncond :
    warm64Retarget offset (warm64BUncond imm26) = warm64BUncond ((offset.sdiv 4).setWidth 32) := by
  have hop : warm64BUncond imm26 >>> 26 = 0x05 := by
    refine BitVec.eq_of_getLsbD_eq fun i hi => ?_
    rw [warm64BUncond]
    interval_cases i <;> simp
  have hno : warm64BUncond imm26 >>> 24 ≠ 0x54 := by
    intro h
    have hbit := congrArg (·.getLsbD 6) h
    simp [warm64BUncond] at hbit
  rw [warm64Retarget, if_neg hno, if_pos hop]
  refine BitVec.eq_of_getLsbD_eq fun i hi => ?_
  generalize offset.sdiv 4 = q
  rw [warm64BUncond, warm64BUncond]
  interval_cases i <;> simp

theorem warm64Retarget_bCond :
    warm64Retarget offset (warm64BCond imm19 cc) = warm64BCond ((offset.sdiv 4).setWidth 32) cc := by
  have hop : warm64BCond imm19 cc >>> 24 = 0x54 := by
    refine BitVec.eq_of_getLsbD_eq fun i hi => ?_
    rw [warm64BCond]
    interval_cases i <;> simp
  rw [warm64Retarget, if_pos hop]
  refine BitVec.eq_of_getLsbD_eq fun i hi => ?_
  generalize offset.sdiv 4 = q
  rw [warm64BCond, warm64BCond]
  interval_cases i <;> simp

theorem rv64Retarget_bType : rv64Retarget offset (rvBType imm rs2 rs1 funct3 rvOpBranch) =
      rvBType ((offset.setWidth 32).setWidth 16) rs2 rs1 funct3 rvOpBranch := by
  obtain ⟨hop, hrs2, hrs1, hf3⟩ : rvBType imm rs2 rs1 funct3 rvOpBranch &&& 0x7F = rvOpBranch ∧
      rvBType imm rs2 rs1 funct3 rvOpBranch >>> 20 &&& 0x1F &&& 0x1F = rs2 &&& 0x1F ∧
      rvBType imm rs2 rs1 funct3 rvOpBranch >>> 15 &&& 0x1F &&& 0x1F = rs1 &&& 0x1F ∧
      rvBType imm rs2 rs1 funct3 rvOpBranch >>> 12 &&& 0x7 &&& 0x7 = funct3 &&& 0x7 := by
    refine ⟨?_, ?_, ?_, ?_⟩ <;>
    · refine BitVec.eq_of_getLsbD_eq fun i hi => ?_
      rw [rvBType]
      interval_cases i <;> simp
  rw [rv64Retarget, if_pos hop, rvBType, hrs2, hrs1, hf3]
  rfl

theorem rv64Retarget_jType (off : Word) :
    rv64Retarget offset (rvJType off rd rvOpJal) = rvJType (offset.setWidth 32) rd rvOpJal := by
  obtain ⟨hop, hrd⟩ : rvJType off rd rvOpJal &&& 0x7F = rvOpJal ∧
      rvJType off rd rvOpJal >>> 7 &&& 0x1F &&& 0x1F = rd &&& 0x1F := by
    constructor <;>
    · refine BitVec.eq_of_getLsbD_eq fun i hi => ?_
      rw [rvJType]
      interval_cases i <;> simp
  rw [rv64Retarget, if_neg (by rw [hop]; decide), if_pos hop, rvJType, hrd]
  rfl

end

/-! ## Distances -/

/-- A field of a number, where it fits. -/
theorem toInt_extractLsb'_of_fits {w s m : Nat} {x : BitVec w} {k : Int} (hw : s + m ≤ w)
    (hx : x.toInt / 2 ^ s = k) (hlo : -2 ^ m ≤ k * 2) (hhi : k * 2 < 2 ^ m) : (x.extractLsb' s m).toInt = k := by
  have hbits : x.extractLsb' s m = (x.sshiftRight s).setWidth m := by
    refine BitVec.eq_of_getLsbD_eq fun i hi => ?_
    have hlt : s + i < w := by omega
    simp [BitVec.getLsbD_sshiftRight, hi, hlt, show ¬w ≤ i by omega]
  have hshift : (x.sshiftRight s).toInt = k := by
    rw [BitVec.toInt_sshiftRight, Int.shiftRight_eq_div_pow, ← hx]
    norm_cast
  have hdvd : (2 : Nat) ^ m ∣ 2 ^ w := Nat.pow_dvd_pow 2 (by omega)
  rw [hbits, BitVec.toInt_setWidth, ← Int.bmod_bmod_of_dvd hdvd, ← BitVec.toInt_eq_toNat_bmod, hshift]
  exact Int.bmod_eq_of_le_mul_two (by push_cast; omega) (by push_cast; omega)

/-- From the branch to its target, in bytes. -/
def distance (pos target : BitVec 64) : Int := target.toNat - pos.toNat

theorem toInt_distance {pos target : BitVec 64} (hlo : -2 ^ 63 ≤ distance pos target)
    (hhi : distance pos target < 2 ^ 63) : (target - pos).toInt = distance pos target := by
  rw [distance] at hlo hhi ⊢
  rw [BitVec.toInt_sub, BitVec.toInt_eq_toNat_bmod, BitVec.toInt_eq_toNat_bmod, Int.bmod_sub_bmod, Int.sub_bmod_bmod]
  exact Int.bmod_eq_of_le_mul_two (by omega) (by omega)

theorem toInt_sdiv_four {x : BitVec 64} {k : Int} (hx : x.toInt = 4 * k) : (x.sdiv 4).toInt = k := by
  rw [BitVec.toInt_sdiv_of_ne_or_ne _ _ (.inr (by decide)), hx]
  exact Int.mul_tdiv_cancel_left _ (by decide)

/-! ## The branches -/

/-- A branch as it is emitted. -/
inductive Emitted where
  | bUncond (imm26 : Word)
  | bCond (imm19 cc : Word)
  | cond (c : Comparison) (rs1 rs2 : Word) (off : BitVec 16)
  | jal (rd off : Word)

namespace Emitted

def word : Emitted → Word
  | .bUncond imm26 => warm64BUncond imm26
  | .bCond imm19 cc => warm64BCond imm19 cc
  | .cond .beq rs1 rs2 off => rv64Beq rs1 rs2 off
  | .cond .bne rs1 rs2 off => rv64Bne rs1 rs2 off
  | .cond .blt rs1 rs2 off => rv64Blt rs1 rs2 off
  | .cond .bge rs1 rs2 off => rv64Bge rs1 rs2 off
  | .jal rd off => rv64Jal rd off

/-- What its processor makes of a word. -/
def decode (w : Word) : Emitted → Option ((A64.BranchKind ⊕ Rv64.BranchKind) × Int)
  | .bUncond _ | .bCond .. => (A64.decodeBranch w).map (Prod.map .inl id)
  | _ => (Rv64.decodeBranch w).map (Prod.map .inr id)

/-- The operation, the condition and the registers. -/
def kind : Emitted → A64.BranchKind ⊕ Rv64.BranchKind
  | .bUncond _ => .inl .b
  | .bCond _ cc => .inl (.bcond (cc.extractLsb' 0 4))
  | .cond c rs1 rs2 _ => .inr (.cond c (rs1.extractLsb' 0 5) (rs2.extractLsb' 0 5))
  | .jal rd _ => .inr (.jal (rd.extractLsb' 0 5))

/-- The function that patches it. -/
def patch (e : Enc) (pos target : BitVec 64) : Emitted → Enc
  | .bUncond _ | .bCond .. => warm64PatchBranch e pos target
  | _ => rv64PatchBranch e pos target

/-- The distances are multiples of this. -/
def unit : Emitted → Int
  | .bUncond _ | .bCond .. => 4
  | _ => 2

/-- How far it goes, in bytes. -/
def range : Emitted → Int
  | .bUncond _ => 2 ^ 27
  | .bCond .. => 2 ^ 20
  | .jal .. => 2 ^ 20
  | _ => 2 ^ 12

def InRange (b : Emitted) (d : Int) : Prop := -b.range ≤ d ∧ d < b.range

instance (b : Emitted) (d : Int) : Decidable (b.InRange d) := inferInstanceAs (Decidable (_ ∧ _))

/-- The four even distances that a `jal` is given rightly are these. -/
def Encodable (d : Int) : Emitted → Prop
  | .jal .. => 2 ∣ d → d = 0 ∨ d = -2 ∨ d = 2 ^ 20 - 2 ∨ d = -2 ^ 20
  | _ => True

/-- The branch is in the buffer at `pos`, in front of the end of the code. -/
structure At (b : Emitted) (e : Enc) (pos : BitVec 64) : Prop where
  le : pos.toNat + 4 ≤ e.pos.toNat
  word_eq : e.word pos = b.word

/-- What a patch is for: in range, the branch goes to its target and is the same one otherwise; out of range, there is
no branch to another place in its stead.  Nothing else changes. -/
structure Patched (b : Emitted) (e : Enc) (pos target : BitVec 64) : Prop where
  kind_eq : (b.decode b.word).map Prod.fst = some b.kind
  inRange : b.InRange (distance pos target) → b.unit ∣ distance pos target →
    b.decode ((b.patch e pos target).word pos) = some (b.kind, distance pos target)
  outOfRange : ¬b.InRange (distance pos target) →
    ∀ k d, b.decode ((b.patch e pos target).word pos) = some (k, d) → d = distance pos target
  others : ∀ x, x < pos.toNat ∨ pos.toNat + 4 ≤ x → (b.patch e pos target).buf x = e.buf x
  pos_eq : (b.patch e pos target).pos = e.pos

/-- What a patch makes of the word. -/
def retarget (offset : BitVec 64) (w : Word) : Emitted → Word
  | .bUncond _ | .bCond .. => warm64Retarget offset w
  | _ => rv64Retarget offset w

/-- The branch with the distance that a patch puts in. -/
def anew (offset : BitVec 64) : Emitted → Emitted
  | .bUncond _ => .bUncond ((offset.sdiv 4).setWidth 32)
  | .bCond _ cc => .bCond ((offset.sdiv 4).setWidth 32) cc
  | .cond c rs1 rs2 _ => .cond c rs1 rs2 ((offset.setWidth 32).setWidth 16)
  | .jal rd _ => .jal rd (offset.setWidth 32)

/-- The distance in the word of a branch. -/
def displacement : Emitted → Int
  | .bUncond imm26 => 4 * (imm26.extractLsb' 0 26).toInt
  | .bCond imm19 _ => 4 * (imm19.extractLsb' 0 19).toInt
  | .cond _ _ _ off => 2 * (off.extractLsb' 1 12).toInt
  | .jal _ off => 2 * (scramble (off.extractLsb' 1 20)).toInt

variable {b : Emitted} {e : Enc} {pos target offset : BitVec 64} {d : Int}

theorem kind_anew (b : Emitted) (offset : BitVec 64) : (b.anew offset).kind = b.kind := by cases b <;> rfl

theorem decode_anew (b : Emitted) (offset : BitVec 64) (w : Word) : (b.anew offset).decode w = b.decode w := by
  cases b <;> rfl

/-- **What the word of a branch means.** -/
theorem decode_word (b : Emitted) : b.decode b.word = some (b.kind, b.displacement) := by
  cases b with
  | bUncond imm26 => exact congrArg (Option.map _) (decode_warm64BUncond imm26)
  | bCond imm19 cc => exact congrArg (Option.map _) (decode_warm64BCond imm19 cc)
  | cond c rs1 rs2 off => cases c <;> exact congrArg (Option.map _) (decode_rvBType rs1 rs2 _ off rfl)
  | jal rd off => exact congrArg (Option.map _) (decode_rvJType rd off)

/-- **A patch emits the branch anew.** -/
theorem retarget_word (b : Emitted) (offset : BitVec 64) : b.retarget offset b.word = (b.anew offset).word := by
  cases b with
  | bUncond imm26 => exact warm64Retarget_bUncond imm26 offset
  | bCond imm19 cc => exact warm64Retarget_bCond imm19 cc offset
  | cond c rs1 rs2 off => cases c <;> exact rv64Retarget_bType rs1 rs2 _ off offset
  | jal rd off => exact rv64Retarget_jType rd offset off

theorem displacement_inRange (b : Emitted) : b.InRange b.displacement := by
  have hb : ∀ {m : Nat} (x : BitVec m), -2 ^ m ≤ 2 * x.toInt ∧ 2 * x.toInt < 2 ^ m :=
    fun x => ⟨BitVec.le_two_mul_toInt, BitVec.two_mul_toInt_lt⟩
  cases b with
  | bUncond imm26 =>
    have h := hb (imm26.extractLsb' 0 26)
    constructor <;> simp only [range, displacement] <;> omega
  | bCond imm19 cc =>
    have h := hb (imm19.extractLsb' 0 19)
    constructor <;> simp only [range, displacement] <;> omega
  | cond c rs1 rs2 off => exact hb (off.extractLsb' 1 12)
  | jal rd off => exact hb (scramble (off.extractLsb' 1 20))

theorem InRange.fits (h : b.InRange d) : -2 ^ 63 ≤ d ∧ d < 2 ^ 63 := by
  obtain ⟨hlo, hhi⟩ := h
  cases b <;> simp only [range] at hlo hhi <;> omega

/-- The low bits of a number of words. -/
theorem displacement_words {m : Nat} {k : Int} (hm : m ≤ 32) (hd : offset.toInt = 4 * k) (hlo : -2 ^ m ≤ k * 2)
    (hhi : k * 2 < 2 ^ m) : (((offset.sdiv 4).setWidth 32).extractLsb' 0 m).toInt = k := by
  have hq : (offset.sdiv 4).toInt / 2 ^ 0 = k := by rw [toInt_sdiv_four hd, Int.pow_zero, Int.ediv_one]
  rw [BitVec.extractLsb'_setWidth_of_le (by omega)]
  exact toInt_extractLsb'_of_fits (by omega) hq hlo hhi

theorem displacement_halfwords {m : Nat} {k : Int} (hm : m ≤ 63) (hd : offset.toInt = 2 * k) (hlo : -2 ^ m ≤ k * 2)
    (hhi : k * 2 < 2 ^ m) : (offset.extractLsb' 1 m).toInt = k := by
  have hq : offset.toInt / 2 ^ 1 = k := by
    rw [hd]
    exact Int.mul_ediv_cancel_left _ (by decide)
  exact toInt_extractLsb'_of_fits (by omega) hq hlo hhi

/-- **Where the distance fits, only a `jal` is given another one.** -/
theorem displacement_anew_iff (hd : offset.toInt = d) (hr : b.InRange d) (hu : b.unit ∣ d) :
    (b.anew offset).displacement = d ↔ b.Encodable d := by
  obtain ⟨k, rfl⟩ := hu
  obtain ⟨hlo, hhi⟩ := hr
  cases b with
  | bUncond | bCond =>
    simp only [range, unit] at hlo hhi hd
    exact iff_of_true (congrArg (4 * ·) (displacement_words (by omega) hd (by omega) (by omega))) trivial
  | cond c rs1 rs2 off =>
    simp only [range, unit] at hlo hhi hd
    refine iff_of_true (congrArg (2 * ·) ?_) trivial
    rw [BitVec.extractLsb'_setWidth_of_le (by omega), BitVec.extractLsb'_setWidth_of_le (by omega)]
    exact displacement_halfwords (by omega) hd (by omega) (by omega)
  | jal rd off =>
    simp only [range, unit] at hlo hhi hd
    have himm : (offset.extractLsb' 1 20).toInt = k := displacement_halfwords (by omega) hd (by omega) (by omega)
    simp only [anew, displacement, unit, Encodable, BitVec.extractLsb'_setWidth_of_le (show 1 + 20 ≤ 32 by decide),
      Int.dvd_mul_right, true_imp_iff]
    generalize offset.extractLsb' 1 20 = x at himm ⊢
    rw [← himm, Int.mul_eq_mul_left_iff (by decide), BitVec.toInt_inj, scramble_eq_iff]
    have h0 : x = 0 ↔ x.toInt = 0 := BitVec.toInt_inj.symm
    have h1 : x = -1 ↔ x.toInt = -1 := BitVec.toInt_inj.symm
    have h2 : x = 0x7FFFF ↔ x.toInt = 2 ^ 19 - 1 := BitVec.toInt_inj.symm
    have h3 : x = 0x80000 ↔ x.toInt = -2 ^ 19 := BitVec.toInt_inj.symm
    rw [h0, h1, h2, h3]
    omega

/-! ## The buffer -/

theorem not_lt_of_at (h : b.At e pos) : ¬e.pos < pos + 4 := by
  have hle := h.le
  rw [BitVec.not_lt, BitVec.le_def, BitVec.toNat_add]
  have hfour : (4 : BitVec 64).toNat = 4 := rfl
  omega

theorem patch_eq (h : b.At e pos) :
    b.patch e pos target = { e with buf := Bytes.put e.buf pos.toNat 4 (b.anew (target - pos)).word.toNat } := by
  have hpatch : ∀ retarget, patchBranch retarget e pos target =
      { e with buf := Bytes.put e.buf pos.toNat 4 (retarget (target - pos) b.word).toNat } := by
    intro retarget
    rw [patchBranch, if_neg (not_lt_of_at h), h.word_eq]
  rw [← retarget_word]
  cases b <;> exact hpatch _

theorem word_put (e : Enc) (pos : BitVec 64) (w : Word) :
    Enc.word { e with buf := Bytes.put e.buf pos.toNat 4 w.toNat } pos = w := by
  refine BitVec.eq_of_toNat_eq ?_
  simp only [Enc.word, Bytes.get_put, BitVec.toNat_ofNat]
  omega

theorem word_patch (h : b.At e pos) : (b.patch e pos target).word pos = (b.anew (target - pos)).word := by
  rw [patch_eq h, word_put]

/-- A branch that is emitted is in the buffer where `branch_pos` says. -/
theorem at_emitWord (b : Emitted) (e : Enc) (hroom : e.pos.toNat + 4 ≤ e.cap.toNat) :
    b.At (emitWord e b.word) (branchPos (emitWord e b.word)) := by
  have hfour : (4 : BitVec 64).toNat = 4 := rfl
  have hnat : (e.pos + 4).toNat = e.pos.toNat + 4 := by
    rw [BitVec.toNat_add, hfour]
    omega
  have hemit : emitWord e b.word = { e with buf := Bytes.put e.buf e.pos.toNat 4 b.word.toNat, pos := e.pos + 4 } := by
    rw [emitWord, if_pos (by rw [BitVec.le_def, hnat]; exact hroom)]
  have hpos : branchPos (emitWord e b.word) = e.pos := by
    rw [branchPos, hemit]
    exact BitVec.add_sub_cancel e.pos 4
  rw [hpos, hemit]
  exact ⟨by rw [hnat], word_put e e.pos b.word⟩

end Emitted

open Emitted

/-- **A patch is right if and only if the distance is in range**, and, for a `jal`, one of four.  Out of range it is
cut off, and the bits of the distance of a `jal` are put in the wrong places. -/
theorem patched_iff (b : Emitted) (e : Enc) (pos target : BitVec 64) (h : b.At e pos) :
    b.Patched e pos target ↔ b.InRange (distance pos target) ∧ b.Encodable (distance pos target) := by
  have hword : b.decode ((b.patch e pos target).word pos) = some (b.kind, (b.anew (target - pos)).displacement) := by
    rw [word_patch h, ← decode_anew b (target - pos), decode_word, kind_anew]
  have hanew : b.InRange (b.anew (target - pos)).displacement := by
    have hr := displacement_inRange (b.anew (target - pos))
    cases b <;> exact hr
  constructor
  · intro hp
    have hr : b.InRange (distance pos target) := by
      by_contra hout
      exact hout (hp.outOfRange hout _ _ hword ▸ hanew)
    refine ⟨hr, ?_⟩
    by_cases hu : b.unit ∣ distance pos target
    · have hd : (target - pos).toInt = distance pos target := toInt_distance (hr.fits).1 hr.fits.2
      rw [← displacement_anew_iff hd hr hu]
      exact congrArg Prod.snd (Option.some.inj (hword.symm.trans (hp.inRange hr hu)))
    · cases b with
      | jal => exact fun hu' => absurd hu' hu
      | _ => trivial
  · rintro ⟨hr, he⟩
    refine ⟨by rw [decode_word]; rfl, fun _ hu => ?_, fun hout => absurd hr hout, fun x hx => ?_, by rw [patch_eq h]⟩
    · rw [hword, (displacement_anew_iff (toInt_distance hr.fits.1 hr.fits.2) hr hu).2 he]
    · rw [patch_eq h]
      show Bytes.put e.buf pos.toNat 4 _ x = e.buf x
      exact Bytes.write_outside hx

/-- An empty buffer of a page. -/
def newEnc : Enc := ⟨fun _ => 0, 0, 4096⟩

theorem patched_iff_beq :
    Patched (.cond .beq 10 11 0) (emitWord newEnc (rv64Beq 10 11 0)) (branchPos (emitWord newEnc (rv64Beq 10 11 0))) 40 :=
  (patched_iff (.cond .beq 10 11 0) _ _ 40 (at_emitWord (.cond .beq 10 11 0) newEnc (by decide))).2 ⟨by decide, trivial⟩

/-- A `jal` over one instruction is patched to go somewhere else. -/
theorem jal_misses : (Emitted.jal 0 0).At (emitWord newEnc (rv64Jal 0 0)) 0 ∧
      ¬(Emitted.jal 0 0).Patched (emitWord newEnc (rv64Jal 0 0)) 0 8 :=
  ⟨at_emitWord (.jal 0 0) newEnc (by decide), fun h => absurd (h.inRange (by decide) (by decide)) (by decide)⟩

end BranchPatch
end WuBuOS
