import WuBuOS.Lib.MachineCode
import WuBuOS.Lib.X86

/-!
# A64 code

The 64-bit register-to-register instructions of ARMv8 that a simple code generator uses: `A64.decodeWord` is
what a word means, and `A64.exec` executes bytes.  In all of them register 31 is the zero register; the stack
pointer is another one, which none of them names.  Shifts by a constant are moves of a bit field.
-/

namespace A64

open WordCode

abbrev Reg := Fin 32

/-- The flags of a comparison. -/
structure Flags where
  n : Bool
  z : Bool
  c : Bool
  v : Bool

structure State where
  x : Reg → BitVec 64
  sp : BitVec 64
  flags : Flags

inductive Alu where
  | add | sub | subs | and | orr | eor
  deriving DecidableEq

inductive Instr where
  | alu (op : Alu) (rd rn rm : Reg)
  | madd (rd rn rm ra : Reg)
  | sdiv (rd rn rm : Reg)
  | bfm (signed : Bool) (rd rn : Reg) (immr imms : Nat)
  | csinc (rd rn rm : Reg) (cond : Nat)
  deriving DecidableEq

/-! ## Decoding -/

def regAt (w k : Nat) : Reg := ⟨field w k 5, field_five_lt w k⟩

/-- The bits from 21 on of the operations on two registers, the second one not shifted. -/
def aluOf : Nat → Option Alu
  | 0x458 => some .add
  | 0x658 => some .sub
  | 0x758 => some .subs
  | 0x450 => some .and
  | 0x550 => some .orr
  | 0x650 => some .eor
  | _ => none

def decodeWord (w : Nat) : Option Instr :=
  let rd := regAt w 0
  let rn := regAt w 5
  let rm := regAt w 16
  let op := field w 21 11
  if op = 0x4D8 ∧ field w 15 1 = 0 then some (.madd rd rn rm (regAt w 10))
  else if op = 0x4D6 ∧ field w 10 6 = 3 then some (.sdiv rd rn rm)
  else if field w 22 10 = 0x34D then some (.bfm false rd rn (field w 16 6) (field w 10 6))
  else if field w 22 10 = 0x24D then some (.bfm true rd rn (field w 16 6) (field w 10 6))
  else if op = 0x4D4 ∧ field w 10 2 = 1 then some (.csinc rd rn rm (field w 12 4))
  else if field w 10 6 = 0 then (aluOf op).map fun o => .alu o rd rn rm
  else none

/-! ## Execution -/

def State.get (s : State) (r : Reg) : BitVec 64 := if r = 31 then 0 else s.x r

def State.set (s : State) (r : Reg) (v : BitVec 64) : State :=
  if r = 31 then s else { s with x := Function.update s.x r v }

/-- The flags of `a - b`. -/
def subFlags (a b : BitVec 64) : Flags where
  n := (a - b).msb
  z := a - b == 0
  c := b.ule a
  v := (a.msb != b.msb) && ((a - b).msb != a.msb)

/-- A condition: the upper three bits choose it, and the lowest one inverts it, but for 15. -/
def Flags.holds (f : Flags) (cond : Nat) : Bool :=
  let base := match cond / 2 with
    | 0 => f.z
    | 1 => f.c
    | 2 => f.n
    | 3 => f.v
    | 4 => f.c && !f.z
    | 5 => f.n == f.v
    | 6 => f.n == f.v && !f.z
    | _ => true
  if cond % 2 = 1 ∧ cond ≠ 15 then !base else base

/-- The bits of `a` from `immr` to `imms` are moved down to bit 0, or, where `imms` is the smaller one, those from
0 to `imms` up to bit `64 - immr`; what is above is filled with zeros or with the sign. -/
def moveField (signed : Bool) (a : BitVec 64) (immr imms : Nat) : BitVec 64 :=
  let top := a <<< (63 - imms)
  let down := fun n => if signed then top.sshiftRight n else top >>> n
  if immr ≤ imms then down (63 - imms + immr) else down (63 - imms) <<< (64 - immr)

def State.alu (s : State) (rd rn rm : Reg) : Alu → State
  | .add => s.set rd (s.get rn + s.get rm)
  | .sub => s.set rd (s.get rn - s.get rm)
  | .subs => { s.set rd (s.get rn - s.get rm) with flags := subFlags (s.get rn) (s.get rm) }
  | .and => s.set rd (s.get rn &&& s.get rm)
  | .orr => s.set rd (s.get rn ||| s.get rm)
  | .eor => s.set rd (s.get rn ^^^ s.get rm)

/-- One instruction.  A quotient by zero is zero. -/
def step (s : State) : Instr → Option State
  | .alu op rd rn rm => some (s.alu rd rn rm op)
  | .madd rd rn rm ra => some (s.set rd (s.get ra + s.get rn * s.get rm))
  | .sdiv rd rn rm => some (s.set rd ((s.get rn).sdiv (s.get rm)))
  | .bfm signed rd rn immr imms => some (s.set rd (moveField signed (s.get rn) immr imms))
  | .csinc rd rn rm cond => some (s.set rd (if s.flags.holds cond then s.get rn else s.get rm + 1))

/-- Execute the bytes. -/
def exec (c : List UInt8) (s : State) : Option State := MachineCode.exec (decode decodeWord) step c s

/-- The bytes are those of the instructions. -/
abbrev Encodes := MachineCode.Encodes (decode decodeWord)

variable {s : State} {r r' : Reg} {v : BitVec 64}

theorem get_set_self (h : r ≠ 31) : (s.set r v).get r = v := by
  rw [State.set, if_neg h, State.get, if_neg h]
  exact Function.update_self ..

theorem get_set_of_ne (h : r' ≠ r) : (s.set r v).get r' = s.get r' := by
  unfold State.set State.get
  by_cases hr : r = 31
  · rw [if_pos hr]
  · rw [if_neg hr]
    dsimp only
    rw [Function.update_of_ne h]

@[simp]
theorem set_sp (s : State) (r : Reg) (v : BitVec 64) : (s.set r v).sp = s.sp := by
  unfold State.set
  split <;> rfl

/-! ## Arithmetic -/

/-- A remainder is what a quotient leaves. -/
theorem sub_sdiv_mul (a b : BitVec 64) : a - a.sdiv b * b = a.srem b := by
  refine BitVec.eq_of_toInt_eq ?_
  have hrem : (a.srem b).toInt.bmod (2 ^ 64) = (a.srem b).toInt := BitVec.toInt_bmod_cancel _
  rw [BitVec.toInt_srem, Int.tmod_def, Int.mul_comm] at hrem
  rw [BitVec.toInt_sub, BitVec.toInt_mul, BitVec.toInt_sdiv, BitVec.toInt_srem, Int.tmod_def, Int.mul_comm b.toInt,
    ← hrem]
  simp

/-- **The flags of a comparison tell the signed relations.** -/
theorem holds_subFlags (a b : BitVec 64) : (subFlags a b).holds 0 = (a == b) ∧ (subFlags a b).holds 11 = a.slt b ∧
    (subFlags a b).holds 12 = b.slt a := by
  have hz : (subFlags a b).z = (a == b) := X86.Cc.holds_cmpFlags .e a b
  have hlt : ((subFlags a b).n != (subFlags a b).v) = a.slt b := X86.Cc.holds_cmpFlags .l a b
  have hgt : (!(subFlags a b).z && (subFlags a b).n == (subFlags a b).v) = b.slt a := X86.Cc.holds_cmpFlags .g a b
  rw [Bool.and_comm] at hgt
  exact ⟨hz, hlt, hgt⟩

/-- The lowest bit of a condition inverts it. -/
theorem holds_inverted (f : Flags) {k : Nat} (h : k < 7) : f.holds (2 * k + 1) = !f.holds (2 * k) := by
  unfold Flags.holds
  rw [show (2 * k + 1) / 2 = k by omega, show 2 * k / 2 = k by omega, if_pos (by omega), if_neg (by omega)]

/-! ## Shifts -/

theorem moveField_lsl (a : BitVec 64) {n : Nat} (h : n < 64) : moveField false a ((64 - n) % 64) (63 - n) = a <<< n := by
  cases n with
  | zero => simp [moveField]
  | succ n =>
    have hr : (64 - (n + 1)) % 64 = 63 - n := by omega
    have hlt : ¬63 - n ≤ 63 - (n + 1) := by omega
    have hs : 63 - (63 - (n + 1)) = n + 1 := by omega
    have hl : 64 - (63 - n) = n + 1 := by omega
    rw [moveField, hr, if_neg hlt, hs, hl]
    refine BitVec.eq_of_getLsbD_eq fun i hi => ?_
    simp only [Bool.false_eq_true, if_false, BitVec.getLsbD_shiftLeft, BitVec.getLsbD_ushiftRight]
    by_cases hin : i < n + 1
    · simp [hin]
    · simp [hin, hi, show n + 1 + (i - (n + 1)) = i by omega]

theorem moveField_lsr (a : BitVec 64) (n : Nat) (h : n < 64) : moveField false a n 63 = a >>> n := by
  simp [moveField, show n ≤ 63 by omega]

theorem moveField_asr (a : BitVec 64) (n : Nat) (h : n < 64) : moveField true a n 63 = a.sshiftRight n := by
  simp [moveField, show n ≤ 63 by omega]

/-! ## Words -/

/-- The fields of a word of three registers, with six bits between the second and the third. -/
theorem fields {op rm low rn rd w : Nat} (hw : op * 2 ^ 21 + rm * 2 ^ 16 + low * 2 ^ 10 + rn * 2 ^ 5 + rd = w)
    (hop : op < 2 ^ 11) (hrm : rm < 32) (hlow : low < 64) (hrn : rn < 32) (hrd : rd < 32) :
    field w 21 11 = op ∧ field w 22 10 = op / 2 ∧ regAt w 16 = ⟨rm, hrm⟩ ∧ regAt w 5 = ⟨rn, hrn⟩ ∧
      regAt w 0 = ⟨rd, hrd⟩ ∧ field w 10 6 = low ∧ field w 10 2 = low % 4 ∧ field w 12 4 = low / 4 ∧
      field w 15 1 = low / 32 ∧ field w 10 5 = low % 32 ∧ field w 16 6 = op % 2 * 32 + rm := by
  have hreg : ∀ k a (ha : a < 32), field w k 5 = a → regAt w k = ⟨a, ha⟩ := fun k a ha h => Fin.ext h
  refine ⟨?_, ?_, hreg _ _ _ ?_, hreg _ _ _ ?_, hreg _ _ _ ?_, ?_, ?_, ?_, ?_, ?_, ?_⟩ <;>
    · unfold field
      omega

section

variable {op rm rn rd : Nat} (hrm : rm < 32) (hrn : rn < 32) (hrd : rd < 32)

include hrm hrn hrd

theorem encodes_alu {o : Alu} (ho : aluOf op = some o) (hop : op < 2 ^ 11)
    (hne : op ≠ 0x4D8 ∧ op ≠ 0x4D6 ∧ op / 2 ≠ 0x34D ∧ op / 2 ≠ 0x24D ∧ op ≠ 0x4D4) :
    Encodes (Bytes.le 4 (op * 2 ^ 21 + rm * 2 ^ 16 + rn * 2 ^ 5 + rd)) [.alu o ⟨rd, hrd⟩ ⟨rn, hrn⟩ ⟨rm, hrm⟩] := by
  obtain ⟨h21, h22, hm, hn, hd, h10, -⟩ := fields rfl hop hrm (show 0 < 64 by decide) hrn hrd
  rw [Nat.zero_mul, Nat.add_zero] at h21 h22 hm hn hd h10
  refine encodes (by omega) ?_
  generalize op * 2 ^ 21 + rm * 2 ^ 16 + rn * 2 ^ 5 + rd = w at h21 h22 hm hn hd h10 ⊢
  simp [decodeWord, h21, h22, hm, hn, hd, h10, hne, ho]

theorem encodes_madd {ra : Nat} (hra : ra < 32) :
    Encodes (Bytes.le 4 (0x4D8 * 2 ^ 21 + rm * 2 ^ 16 + ra * 2 ^ 10 + rn * 2 ^ 5 + rd))
      [.madd ⟨rd, hrd⟩ ⟨rn, hrn⟩ ⟨rm, hrm⟩ ⟨ra, hra⟩] := by
  obtain ⟨h21, -, hm, hn, hd, -, -, -, h15, ha, -⟩ :=
    fields rfl (show 0x4D8 < 2 ^ 11 by decide) hrm (show ra < 64 by omega) hrn hrd
  have ha : regAt (0x4D8 * 2 ^ 21 + rm * 2 ^ 16 + ra * 2 ^ 10 + rn * 2 ^ 5 + rd) 10 = ⟨ra, hra⟩ :=
    Fin.ext (ha.trans (Nat.mod_eq_of_lt hra))
  rw [Nat.div_eq_of_lt hra] at h15
  refine encodes (by omega) ?_
  rw [decodeWord, h21, h15, hm, hn, hd, ha]
  rfl

theorem encodes_sdiv : Encodes (Bytes.le 4 (0x4D6 * 2 ^ 21 + rm * 2 ^ 16 + 3 * 2 ^ 10 + rn * 2 ^ 5 + rd))
    [.sdiv ⟨rd, hrd⟩ ⟨rn, hrn⟩ ⟨rm, hrm⟩] := by
  obtain ⟨h21, -, hm, hn, hd, h10, -⟩ :=
    fields rfl (show 0x4D6 < 2 ^ 11 by decide) hrm (show 3 < 64 by decide) hrn hrd
  refine encodes (by omega) ?_
  rw [decodeWord, h21, h10, hm, hn, hd]
  rfl

theorem encodes_csinc {cond : Nat} (hcond : cond < 16) :
    Encodes (Bytes.le 4 (0x4D4 * 2 ^ 21 + rm * 2 ^ 16 + (cond * 4 + 1) * 2 ^ 10 + rn * 2 ^ 5 + rd))
      [.csinc ⟨rd, hrd⟩ ⟨rn, hrn⟩ ⟨rm, hrm⟩ cond] := by
  obtain ⟨h21, h22, hm, hn, hd, -, h10, h12, -⟩ :=
    fields rfl (show 0x4D4 < 2 ^ 11 by decide) hrm (show cond * 4 + 1 < 64 by omega) hrn hrd
  have h10 := h10.trans (show (cond * 4 + 1) % 4 = 1 by omega)
  have h12 := h12.trans (show (cond * 4 + 1) / 4 = cond by omega)
  refine encodes (by omega) ?_
  generalize 0x4D4 * 2 ^ 21 + rm * 2 ^ 16 + (cond * 4 + 1) * 2 ^ 10 + rn * 2 ^ 5 + rd = w at h21 h22 hm hn hd h10 h12 ⊢
  simp [decodeWord, h21, h22, hm, hn, hd, h10, h12]

end

/-- A move of a bit field, with or without its sign. -/
theorem encodes_bfm (signed : Bool) {immr imms rn rd : Nat} (hr : immr < 64) (hs : imms < 64) (hrn : rn < 32)
    (hrd : rd < 32) :
    Encodes (Bytes.le 4 ((if signed then 0x24D else 0x34D) * 2 ^ 22 + immr * 2 ^ 16 + imms * 2 ^ 10 + rn * 2 ^ 5 + rd))
      [.bfm signed ⟨rd, hrd⟩ ⟨rn, hrn⟩ immr imms] := by
  generalize hop : (if signed = true then 0x24D else 0x34D) = op
  have hlt : op < 2 ^ 10 := by rw [← hop]; split <;> decide
  have hword : (op * 2 + immr / 32) * 2 ^ 21 + immr % 32 * 2 ^ 16 + imms * 2 ^ 10 + rn * 2 ^ 5 + rd =
      op * 2 ^ 22 + immr * 2 ^ 16 + imms * 2 ^ 10 + rn * 2 ^ 5 + rd := by omega
  obtain ⟨h21, h22, -, hn, hd, h10, -, -, -, -, h16⟩ := fields hword (by omega) (Nat.mod_lt _ (by decide)) hs hrn hrd
  have h22 := h22.trans (show (op * 2 + immr / 32) / 2 = op by omega)
  have h16 := h16.trans (show (op * 2 + immr / 32) % 2 * 32 + immr % 32 = immr by omega)
  refine encodes (by omega) ?_
  have hne : op * 2 + immr / 32 ≠ 0x4D8 ∧ op * 2 + immr / 32 ≠ 0x4D6 := by
    rw [← hop]
    split <;> omega
  simp only [decodeWord, h21, h22, hn, hd, h10, h16, hne.1, hne.2, false_and, if_false]
  cases signed with
  | false =>
    obtain rfl : 0x34D = op := hop
    rfl
  | true =>
    obtain rfl : 0x24D = op := hop
    rfl

/-! ## Immediate operands -/

/-- Instructions with a constant in the word.  In a sum and a difference register 31 is the stack pointer. -/
inductive ImmInstr where
  | movz (rd : Reg) (imm16 hw : Nat)
  | addSub (sub : Bool) (rd rn : Reg) (imm12 : Nat)
  deriving DecidableEq

/-- The constant of a sum is not shifted. -/
def decodeImm (w : Nat) : Option ImmInstr :=
  if field w 23 9 = 0x1A5 then some (.movz (regAt w 0) (field w 5 16) (field w 21 2))
  else if field w 22 10 = 0x244 then some (.addSub false (regAt w 0) (regAt w 5) (field w 10 12))
  else if field w 22 10 = 0x344 then some (.addSub true (regAt w 0) (regAt w 5) (field w 10 12))
  else none

def State.getSp (s : State) (r : Reg) : BitVec 64 := if r = 31 then s.sp else s.x r

def State.setSp (s : State) (r : Reg) (v : BitVec 64) : State :=
  if r = 31 then { s with sp := v } else { s with x := Function.update s.x r v }

def sumDiff (sub : Bool) (a b : BitVec 64) : BitVec 64 := if sub then a - b else a + b

def stepImm (s : State) : ImmInstr → Option State
  | .movz rd imm16 hw => some (s.set rd (BitVec.ofNat 64 imm16 <<< (16 * hw)))
  | .addSub sub rd rn imm12 => some (s.setSp rd (sumDiff sub (s.getSp rn) (.ofNat 64 imm12)))

/-- One instruction of either kind. -/
def stepAny (s : State) : Instr ⊕ ImmInstr → Option State := Sum.elim (step s) (stepImm s)

def execAny (c : List UInt8) (s : State) : Option State :=
  MachineCode.exec (decode (orElse decodeWord decodeImm)) stepAny c s

abbrev EncodesAny := MachineCode.Encodes (decode (orElse decodeWord decodeImm))

/-- The words with an immediate operand are none of those with registers only. -/
theorem decodeWord_none {w : Nat} (h : field w 21 11 / 4 = 0x1A5 ∨ field w 21 11 / 2 = 0x244 ∨ field w 21 11 / 2 = 0x344) :
    decodeWord w = none := by
  have h22 : field w 22 10 = field w 21 11 / 2 := by
    unfold field
    omega
  have hlt := field_lt w 21 11
  unfold decodeWord
  rw [h22]
  generalize field w 21 11 = op at h hlt ⊢
  have halu : aluOf op = none := by
    unfold aluOf
    split <;> first | omega | rfl
  rw [if_neg (by omega), if_neg (by omega), if_neg (by omega), if_neg (by omega), if_neg (by omega), halu]
  exact ite_self _

theorem encodes_movz {imm16 hw rd : Nat} (hi : imm16 < 2 ^ 16) (hh : hw < 4) (hd : rd < 32) :
    EncodesAny (Bytes.le 4 (0x1A5 * 2 ^ 23 + hw * 2 ^ 21 + imm16 * 2 ^ 5 + rd)) [.inr (.movz ⟨rd, hd⟩ imm16 hw)] := by
  generalize hw' : 0x1A5 * 2 ^ 23 + hw * 2 ^ 21 + imm16 * 2 ^ 5 + rd = w
  have h23 : field w 23 9 = 0x1A5 := by unfold field; omega
  have h21 : field w 21 2 = hw := by unfold field; omega
  have h5 : field w 5 16 = imm16 := by unfold field; omega
  have h0 : regAt w 0 = ⟨rd, hd⟩ := Fin.ext (show field w 0 5 = rd by unfold field; omega)
  refine encodes_inr (by omega) (decodeWord_none (.inl ?_)) ?_
  · unfold field
    omega
  · rw [decodeImm, if_pos h23, h21, h5, h0]

theorem encodes_addSub (sub : Bool) {imm12 rn rd : Nat} (hi : imm12 < 2 ^ 12) (hn : rn < 32) (hd : rd < 32) :
    EncodesAny (Bytes.le 4 ((if sub then 0x344 else 0x244) * 2 ^ 22 + imm12 * 2 ^ 10 + rn * 2 ^ 5 + rd))
      [.inr (.addSub sub ⟨rd, hd⟩ ⟨rn, hn⟩ imm12)] := by
  generalize hop : (if sub = true then 0x344 else 0x244) = op
  have hlt : op = 0x344 ∨ op = 0x244 := by rw [← hop]; split <;> simp
  generalize hw : op * 2 ^ 22 + imm12 * 2 ^ 10 + rn * 2 ^ 5 + rd = w
  have h23 : field w 23 9 ≠ 0x1A5 := by unfold field; omega
  have h22 : field w 22 10 = op := by unfold field; omega
  have h10 : field w 10 12 = imm12 := by unfold field; omega
  have h5 : regAt w 5 = ⟨rn, hn⟩ := Fin.ext (show field w 5 5 = rn by unfold field; omega)
  have h0 : regAt w 0 = ⟨rd, hd⟩ := Fin.ext (show field w 0 5 = rd by unfold field; omega)
  refine encodes_inr (by omega) (decodeWord_none (.inr ?_)) ?_
  · unfold field
    omega
  · rw [decodeImm, if_neg h23, h22, h10, h5, h0, ← hop]
    cases sub <;> rfl

/-! ## Branches -/

/-- A branch to an address relative to its own, but for the distance. -/
inductive BranchKind where
  | b
  | bcond (cond : BitVec 4)
  deriving DecidableEq

/-- A relative branch and the distance to its target, in bytes. -/
def decodeBranch (w : BitVec 32) : Option (BranchKind × Int) :=
  if w.extractLsb' 26 6 = 0x05 then some (.b, 4 * (w.extractLsb' 0 26).toInt)
  else if w.extractLsb' 24 8 = 0x54 ∧ w.extractLsb' 4 1 = 0 then
    some (.bcond (w.extractLsb' 0 4), 4 * (w.extractLsb' 5 19).toInt)
  else none

end A64
