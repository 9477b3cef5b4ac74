import WuBuOS.Lib.MachineCode

/-!
# RV64 code

The register-to-register part of RV64IM and its immediate forms, as far as a simple code generator uses them:
`Rv64.decodeWord` is what a word means, and `Rv64.exec` executes bytes.  None of these instructions traps.
Register 0 reads as zero and cannot be written.
-/

namespace Rv64

open WordCode

abbrev Reg := Fin 32

structure State where
  x : Reg → BitVec 64

/-- Operations of two registers. -/
inductive Op where
  | add | sub | mul | div | rem | and | or | xor | slt
  deriving DecidableEq

/-- Operations with an immediate operand. -/
inductive ImmOp where
  | addi | xori | sltiu
  deriving DecidableEq

inductive ShiftOp where
  | slli | srli | srai
  deriving DecidableEq

inductive Instr where
  | op (o : Op) (rd rs1 rs2 : Reg)
  | imm (o : ImmOp) (rd rs1 : Reg) (v : BitVec 12)
  | shift (o : ShiftOp) (rd rs1 : Reg) (n : Nat)
  deriving DecidableEq

/-! ## Decoding -/

def regAt (w k : Nat) : Reg := ⟨field w k 5, field_five_lt w k⟩

/-- The operation of `funct7` and `funct3`. -/
def opOf : Nat → Nat → Option Op
  | 0x00, 0 => some .add
  | 0x20, 0 => some .sub
  | 0x01, 0 => some .mul
  | 0x01, 4 => some .div
  | 0x01, 6 => some .rem
  | 0x00, 7 => some .and
  | 0x00, 6 => some .or
  | 0x00, 4 => some .xor
  | 0x00, 2 => some .slt
  | _, _ => none

def immOpOf : Nat → Option ImmOp
  | 0 => some .addi
  | 3 => some .sltiu
  | 4 => some .xori
  | _ => none

/-- The shift of `funct3` and the six bits above the amount. -/
def shiftOf : Nat → Nat → Option ShiftOp
  | 1, 0x00 => some .slli
  | 5, 0x00 => some .srli
  | 5, 0x10 => some .srai
  | _, _ => none

def decodeWord (w : Nat) : Option Instr :=
  let rd := regAt w 7
  let rs1 := regAt w 15
  let funct3 := field w 12 3
  if field w 0 7 = 0x33 then (opOf (field w 25 7) funct3).map fun o => .op o rd rs1 (regAt w 20)
  else if field w 0 7 = 0x13 then
    if funct3 = 1 ∨ funct3 = 5 then (shiftOf funct3 (field w 26 6)).map fun o => .shift o rd rs1 (field w 20 6)
    else (immOpOf funct3).map fun o => .imm o rd rs1 (BitVec.ofNat 12 (field w 20 12))
  else none

/-! ## Execution -/

def State.get (s : State) (r : Reg) : BitVec 64 := if r = 0 then 0 else s.x r

def State.set (s : State) (r : Reg) (v : BitVec 64) : State :=
  if r = 0 then s else ⟨Function.update s.x r v⟩

/-- A quotient by zero is -1, and the remainder is the dividend. -/
def Op.apply (a b : BitVec 64) : Op → BitVec 64
  | .add => a + b
  | .sub => a - b
  | .mul => a * b
  | .div => if b = 0 then -1 else a.sdiv b
  | .rem => if b = 0 then a else a.srem b
  | .and => a &&& b
  | .or => a ||| b
  | .xor => a ^^^ b
  | .slt => if a.slt b then 1 else 0

def ImmOp.apply (a b : BitVec 64) : ImmOp → BitVec 64
  | .addi => a + b
  | .xori => a ^^^ b
  | .sltiu => if a.ult b then 1 else 0

def ShiftOp.apply (a : BitVec 64) (n : Nat) : ShiftOp → BitVec 64
  | .slli => a <<< n
  | .srli => a >>> n
  | .srai => a.sshiftRight n

/-- One instruction. -/
def step (s : State) : Instr → Option State
  | .op o rd rs1 rs2 => some (s.set rd (o.apply (s.get rs1) (s.get rs2)))
  | .imm o rd rs1 v => some (s.set rd (o.apply (s.get rs1) (v.signExtend 64)))
  | .shift o rd rs1 n => some (s.set rd (o.apply (s.get rs1) n))

/-- Execute the bytes. -/
def exec (c : List UInt8) (s : State) : Option State := MachineCode.exec (decode decodeWord) step c s

/-- The bytes are those of the instructions. -/
abbrev Encodes := MachineCode.Encodes (decode decodeWord)

variable {s : State} {r r' : Reg} {v : BitVec 64}

theorem get_set_self (h : r ≠ 0) : (s.set r v).get r = v := by
  rw [State.set, if_neg h, State.get, if_neg h]
  exact Function.update_self ..

theorem get_set_of_ne (h : r' ≠ r) : (s.set r v).get r' = s.get r' := by
  unfold State.set State.get
  by_cases hr : r = 0
  · rw [if_pos hr]
  · rw [if_neg hr]
    dsimp only
    rw [Function.update_of_ne h]

/-- The fields that words of the three kinds have in common. -/
theorem fields {t rs1 f3 rd op w : Nat} (hop : op < 128) (hrs1 : rs1 < 32) (hrd : rd < 32) (hf3 : f3 < 8)
    (hw : t * 2 ^ 20 + rs1 * 2 ^ 15 + f3 * 2 ^ 12 + rd * 2 ^ 7 + op = w) :
    field w 0 7 = op ∧ field w 12 3 = f3 ∧ regAt w 7 = ⟨rd, hrd⟩ ∧ regAt w 15 = ⟨rs1, hrs1⟩ :=
  ⟨by unfold field; omega, by unfold field; omega, Fin.ext (show field w 7 5 = rd by unfold field; omega),
    Fin.ext (show field w 15 5 = rs1 by unfold field; omega)⟩

/-- A word with its fields. -/
theorem encodes_op {f7 rs2 rs1 f3 rd : Nat} {o : Op} (hrs2 : rs2 < 32) (hrs1 : rs1 < 32) (hrd : rd < 32)
    (ho : opOf f7 f3 = some o) (hf7 : f7 < 128) (hf3 : f3 < 8) :
    Encodes (Bytes.le 4 (f7 * 2 ^ 25 + rs2 * 2 ^ 20 + rs1 * 2 ^ 15 + f3 * 2 ^ 12 + rd * 2 ^ 7 + 0x33))
      [.op o ⟨rd, hrd⟩ ⟨rs1, hrs1⟩ ⟨rs2, hrs2⟩] := by
  refine encodes (by omega) ?_
  generalize hw : f7 * 2 ^ 25 + rs2 * 2 ^ 20 + rs1 * 2 ^ 15 + f3 * 2 ^ 12 + rd * 2 ^ 7 + 0x33 = w
  have ht : (f7 * 2 ^ 5 + rs2) * 2 ^ 20 + rs1 * 2 ^ 15 + f3 * 2 ^ 12 + rd * 2 ^ 7 + 0x33 = w := by
    rw [Nat.add_mul, Nat.mul_assoc, ← Nat.pow_add]
    exact hw
  obtain ⟨hop, h3, hd, h1⟩ := fields (by decide) hrs1 hrd hf3 ht
  have h7 : field w 25 7 = f7 := by unfold field; omega
  have h2 : regAt w 20 = ⟨rs2, hrs2⟩ := Fin.ext (show field w 20 5 = rs2 by unfold field; omega)
  simp only [decodeWord, hop, h7, h3, hd, h1, h2, ho, if_true, Option.map_some]

theorem encodes_imm {v rs1 f3 rd : Nat} {o : ImmOp} (hv : v < 4096) (hrs1 : rs1 < 32) (hrd : rd < 32)
    (ho : immOpOf f3 = some o) (hf3 : f3 < 8) (hne : f3 ≠ 1 ∧ f3 ≠ 5) :
    Encodes (Bytes.le 4 (v * 2 ^ 20 + rs1 * 2 ^ 15 + f3 * 2 ^ 12 + rd * 2 ^ 7 + 0x13))
      [.imm o ⟨rd, hrd⟩ ⟨rs1, hrs1⟩ (BitVec.ofNat 12 v)] := by
  refine encodes (by omega) ?_
  generalize hw : v * 2 ^ 20 + rs1 * 2 ^ 15 + f3 * 2 ^ 12 + rd * 2 ^ 7 + 0x13 = w
  obtain ⟨hop, h3, hd, h1⟩ := fields (by decide) hrs1 hrd hf3 hw
  have hi : field w 20 12 = v := by unfold field; omega
  have hshift : ¬(f3 = 1 ∨ f3 = 5) := not_or.2 hne
  simp only [decodeWord, hop, hi, h3, hd, h1, ho, if_neg hshift, if_neg (show (0x13 : Nat) ≠ 0x33 by decide), if_true,
    Option.map_some]

theorem encodes_shift {f6 n rs1 f3 rd : Nat} {o : ShiftOp} (hn : n < 64) (hrs1 : rs1 < 32) (hrd : rd < 32)
    (ho : shiftOf f3 f6 = some o) (hf6 : f6 < 64) (hf3 : f3 = 1 ∨ f3 = 5) :
    Encodes (Bytes.le 4 ((f6 * 2 ^ 6 + n) * 2 ^ 20 + rs1 * 2 ^ 15 + f3 * 2 ^ 12 + rd * 2 ^ 7 + 0x13))
      [.shift o ⟨rd, hrd⟩ ⟨rs1, hrs1⟩ n] := by
  refine encodes (by omega) ?_
  generalize hw : (f6 * 2 ^ 6 + n) * 2 ^ 20 + rs1 * 2 ^ 15 + f3 * 2 ^ 12 + rd * 2 ^ 7 + 0x13 = w
  obtain ⟨hop, h3, hd, h1⟩ := fields (by decide) hrs1 hrd (by omega) hw
  have h6 : field w 26 6 = f6 := by unfold field; omega
  have hi : field w 20 6 = n := by unfold field; omega
  simp only [decodeWord, hop, h6, hi, h3, hd, h1, ho, if_pos hf3, if_neg (show (0x13 : Nat) ≠ 0x33 by decide), if_true,
    Option.map_some]

/-! ## Upper immediates -/

inductive UpperInstr where
  | lui (rd : Reg) (v : BitVec 20)
  deriving DecidableEq

def decodeUpper (w : Nat) : Option UpperInstr :=
  if field w 0 7 = 0x37 then some (.lui (regAt w 7) (.ofNat 20 (field w 12 20))) else none

/-- The upper 20 of 32 bits, and the sign. -/
def upper (v : BitVec 20) : BitVec 64 := (v.setWidth 32 <<< 12).signExtend 64

def stepUpper (s : State) : UpperInstr → Option State
  | .lui rd v => some (s.set rd (upper v))

/-- One instruction of either kind. -/
def stepAny (s : State) : Instr ⊕ UpperInstr → Option State := Sum.elim (step s) (stepUpper s)

def execAny (c : List UInt8) (s : State) : Option State :=
  MachineCode.exec (decode (orElse decodeWord decodeUpper)) stepAny c s

abbrev EncodesAny := MachineCode.Encodes (decode (orElse decodeWord decodeUpper))

theorem encodes_lui {v rd : Nat} (hv : v < 2 ^ 20) (hd : rd < 32) :
    EncodesAny (Bytes.le 4 (v * 2 ^ 12 + rd * 2 ^ 7 + 0x37)) [.inr (.lui ⟨rd, hd⟩ (.ofNat 20 v))] := by
  generalize hw : v * 2 ^ 12 + rd * 2 ^ 7 + 0x37 = w
  have hop : field w 0 7 = 0x37 := by unfold field; omega
  have hi : field w 12 20 = v := by unfold field; omega
  have h7 : regAt w 7 = ⟨rd, hd⟩ := Fin.ext (show field w 7 5 = rd by unfold field; omega)
  refine encodes_inr (by omega) ?_ ?_
  · rw [decodeWord, hop]
    rfl
  · rw [decodeUpper, if_pos hop, hi, h7]

/-! ## Branches -/

inductive Comparison where
  | beq | bne | blt | bge
  deriving DecidableEq

/-- A branch to an address relative to its own, but for the distance. -/
inductive BranchKind where
  | cond (c : Comparison) (rs1 rs2 : BitVec 5)
  | jal (rd : BitVec 5)
  deriving DecidableEq

/-- The comparison of `funct3`. -/
def comparisonOf : BitVec 3 → Option Comparison
  | 0 => some .beq
  | 1 => some .bne
  | 4 => some .blt
  | 5 => some .bge
  | _ => none

/-- The distance of a B-type word: bits 12, 11, 10 to 5 and 4 to 1. -/
def immB (w : BitVec 32) : BitVec 12 :=
  w.extractLsb' 31 1 ++ w.extractLsb' 7 1 ++ w.extractLsb' 25 6 ++ w.extractLsb' 8 4

/-- The distance of a J-type word: bits 20, 19 to 12, 11 and 10 to 1. -/
def immJ (w : BitVec 32) : BitVec 20 :=
  w.extractLsb' 31 1 ++ w.extractLsb' 12 8 ++ w.extractLsb' 20 1 ++ w.extractLsb' 21 10

/-- A relative branch and the distance to its target, in bytes. -/
def decodeBranch (w : BitVec 32) : Option (BranchKind × Int) :=
  if w.extractLsb' 0 7 = 0x63 then
    (comparisonOf (w.extractLsb' 12 3)).map fun c =>
      (.cond c (w.extractLsb' 15 5) (w.extractLsb' 20 5), 2 * (immB w).toInt)
  else if w.extractLsb' 0 7 = 0x6F then some (.jal (w.extractLsb' 7 5), 2 * (immJ w).toInt)
  else none

end Rv64
