import WuBuOS.Lib.MachineCode
import WuBuOS.Lib.X86

/-!
# Bytes of x86-64 code

The part of the instruction set of `X86` that a register-to-register code generator uses, together with
spills to memory, here with its encoding: `Amd64.decode` takes an instruction off the front of a list of
bytes, and `Amd64.exec` executes bytes.

All sixteen general registers are alike and hold 64-bit values.  An operand in memory is a base register
and a displacement; the address is their 64-bit sum.  Forms that are not modelled (an index register, the
shorter operand sizes, prefixes other than `REX`) do not decode.
-/

namespace Amd64

/-- A general register, by its number. -/
abbrev Reg := Fin 16

structure State where
  reg : Reg → BitVec 64
  mem : Int → BitVec 8
  /-- `none` after an instruction whose flags are not modelled. -/
  flags : Option X86.Flags

/-- Operations with a register as the second operand. -/
inductive Alu where
  | add | or | and | sub | xor | cmp | mov
  deriving DecidableEq

inductive Shift where
  | shl | shr | sar
  deriving DecidableEq

/-- An 8-bit register: the low byte of a general register, or the second byte of one of the first four. -/
inductive ByteReg where
  | low (r : Reg)
  | high (r : Reg)
  deriving DecidableEq

inductive Instr where
  | alu (op : Alu) (dst src : Reg)
  | imul (dst src : Reg)
  | cqo
  | idiv (src : Reg)
  | shift (op : Shift) (dst : Reg) (n : UInt8)
  | movImm (dst : Reg) (v : BitVec 64)
  | load (dst base : Reg) (disp : BitVec 32)
  | store (base : Reg) (disp : BitVec 32) (src : Reg)
  | setcc (cc : X86.Cc) (dst : ByteReg)
  | movzx (dst : Reg) (src : ByteReg)
  deriving DecidableEq

/-! ## Decoding -/

/-- The bits of a `REX` prefix. -/
structure Rex where
  w : Bool
  r : Bool
  b : Bool
  deriving DecidableEq

def Rex.ofByte (b : UInt8) : Rex := ⟨b &&& 8 ≠ 0, b &&& 4 ≠ 0, b &&& 1 ≠ 0⟩

/-- A register from its three low bits and the bit in the prefix. -/
def regOf (hi : Bool) (lo : UInt8) : Reg := Fin.ofNat 16 (lo.toNat % 8 + if hi then 8 else 0)

/-- An 8-bit register.  Without a prefix the codes from 4 on are second bytes. -/
def byteRegOf (rex : Option Rex) (hi : Bool) (lo : UInt8) : ByteReg :=
  if rex = none ∧ 4 ≤ lo.toNat % 8 then .high (Fin.ofNat 16 (lo.toNat % 8 - 4)) else .low (regOf hi lo)

def modOf (m : UInt8) : UInt8 := m >>> 6

def regField (m : UInt8) : UInt8 := (m >>> 3) &&& 7

def rmField (m : UInt8) : UInt8 := m &&& 7

/-- The little-endian number in the first `n` bytes. -/
def takeNumber (n : Nat) (c : List UInt8) : Option (Nat × List UInt8) :=
  if n ≤ c.length then some (Bytes.number (c.take n), c.drop n) else none

/-- The displacement behind a base register. -/
def takeDisp (mod rm : UInt8) (c : List UInt8) : Option (BitVec 32 × List UInt8) :=
  if rm = 4 then none
  else if mod = 0 ∧ rm ≠ 5 then some (0, c)
  else if mod = 1 then (takeNumber 1 c).map fun p => ((BitVec.ofNat 8 p.1).signExtend 32, p.2)
  else if mod = 2 then (takeNumber 4 c).map fun p => (.ofNat 32 p.1, p.2)
  else none

def aluOf (op : UInt8) : Option Alu :=
  if op = 0x01 then some .add
  else if op = 0x09 then some .or
  else if op = 0x21 then some .and
  else if op = 0x29 then some .sub
  else if op = 0x31 then some .xor
  else if op = 0x39 then some .cmp
  else if op = 0x89 then some .mov
  else none

def shiftOf (ext : UInt8) : Option Shift :=
  if ext = 4 then some .shl else if ext = 5 then some .shr else if ext = 7 then some .sar else none

def ccOf (code : UInt8) : Option X86.Cc :=
  if code = 0x4 then some .e
  else if code = 0x5 then some .ne
  else if code = 0xC then some .l
  else if code = 0xD then some .ge
  else if code = 0xE then some .le
  else if code = 0xF then some .g
  else none

/-- Behind the byte `0F`. -/
def decodeTwoByte (rex : Option Rex) (x : Rex) : List UInt8 → Option (Instr × List UInt8)
  | op :: m :: c =>
    if modOf m ≠ 3 then none
    else if op = 0xAF ∧ x.w then some (.imul (regOf x.r (regField m)) (regOf x.b (rmField m)), c)
    else if op &&& 0xF0 = 0x90 then
      (ccOf (op &&& 0xF)).map fun cc => (.setcc cc (byteRegOf rex x.b (rmField m)), c)
    else if op = 0xB6 ∧ !x.w then
      some (.movzx (regOf x.r (regField m)) (byteRegOf rex x.b (rmField m)), c)
    else none
  | _ => none

/-- An opcode with a 64-bit operand, the byte behind it and what follows. -/
def decodeWide (x : Rex) (op m : UInt8) (c : List UInt8) : Option (Instr × List UInt8) :=
  let reg := regOf x.r (regField m)
  let rm := regOf x.b (rmField m)
  if op = 0x8B then (takeDisp (modOf m) (rmField m) c).map fun p => (.load reg rm p.1, p.2)
  else if op = 0x89 ∧ modOf m ≠ 3 then
    (takeDisp (modOf m) (rmField m) c).map fun p => (.store rm p.1 reg, p.2)
  else if modOf m ≠ 3 then none
  else if op = 0xF7 then if regField m = 7 then some (.idiv rm, c) else none
  else if op = 0xC1 then
    match c with
    | n :: c => (shiftOf (regField m)).map fun op => (.shift op rm n, c)
    | [] => none
  else (aluOf op).map fun op => (.alu op rm reg, c)

/-- Behind the prefix, if there is one. -/
def decodeOpcode (rex : Option Rex) : List UInt8 → Option (Instr × List UInt8)
  | [] => none
  | op :: c =>
    let x := rex.getD ⟨false, false, false⟩
    if op = 0x0F then decodeTwoByte rex x c
    else if !x.w then none
    else if op = 0x99 then some (.cqo, c)
    else if op &&& 0xF8 = 0xB8 then (takeNumber 8 c).map fun p => (.movImm (regOf x.b (op &&& 7)) (.ofNat 64 p.1), p.2)
    else
      match c with
      | m :: c => decodeWide x op m c
      | [] => none

/-- Take an instruction off the front. -/
def decode : List UInt8 → Option (Instr × List UInt8)
  | [] => none
  | b :: c => if b &&& 0xF0 = 0x40 then decodeOpcode (some (.ofByte b)) c else decodeOpcode none (b :: c)

/-! ## Execution -/

def State.setReg (s : State) (r : Reg) (v : BitVec 64) : State :=
  { s with reg := fun x => if x = r then v else s.reg x }

/-- The result of an arithmetic instruction, whose flags are not modelled. -/
def State.setAlu (s : State) (r : Reg) (v : BitVec 64) : State := { s.setReg r v with flags := none }

/-- The address of an operand in memory. -/
def State.addr (s : State) (base : Reg) (disp : BitVec 32) : Int :=
  (s.reg base + disp.signExtend 64).toNat

def State.getByte (s : State) : ByteReg → BitVec 8
  | .low r => (s.reg r).extractLsb' 0 8
  | .high r => (s.reg r).extractLsb' 8 8

/-- The other bytes of the register are kept. -/
def State.setByte (s : State) (r : ByteReg) (v : BitVec 8) : State :=
  match r with
  | .low r => s.setReg r (s.reg r &&& ~~~0xFF#64 ||| v.setWidth 64)
  | .high r => s.setReg r (s.reg r &&& ~~~0xFF00#64 ||| v.setWidth 64 <<< 8)

/-- `idiv`: the 128-bit dividend in `rdx:rax`, the quotient to `rax` and the remainder to `rdx`. -/
def State.idiv (s : State) (d : BitVec 64) : Option State :=
  let n : Int := (s.reg 2).toInt * 2 ^ 64 + (s.reg 0).toNat
  let q := n.tdiv d.toInt
  if d.toInt = 0 ∨ q < -2 ^ 63 ∨ 2 ^ 63 ≤ q then none
  else some ((s.setAlu 0 (.ofInt 64 q)).setReg 2 (.ofInt 64 (n.tmod d.toInt)))

def State.alu (s : State) (d r : Reg) : Alu → State
  | .add => s.setAlu d (s.reg d + s.reg r)
  | .or => s.setAlu d (s.reg d ||| s.reg r)
  | .and => s.setAlu d (s.reg d &&& s.reg r)
  | .sub => s.setAlu d (s.reg d - s.reg r)
  | .xor => s.setAlu d (s.reg d ^^^ s.reg r)
  | .cmp => { s with flags := some (X86.cmpFlags (s.reg d) (s.reg r)) }
  | .mov => s.setReg d (s.reg r)

/-- A shift by `n`. -/
def Shift.apply (v : BitVec 64) (n : Nat) : Shift → BitVec 64
  | .shl => v <<< n
  | .shr => v >>> n
  | .sar => v.sshiftRight n

/-- One instruction. -/
def step (s : State) : Instr → Option State
  | .alu op d r => some (s.alu d r op)
  | .imul d r => some (s.setAlu d (s.reg d * s.reg r))
  | .cqo => some (s.setReg 2 (if (s.reg 0).msb then -1 else 0))
  | .idiv r => s.idiv (s.reg r)
  | .shift op d n => some (s.setAlu d (op.apply (s.reg d) (n.toNat % 64)))
  | .movImm d v => some (s.setReg d v)
  | .load d b disp => some (s.setReg d (X86.load s.mem (s.addr b disp)))
  | .store b disp r => some { s with mem := X86.store s.mem (s.addr b disp) (s.reg r) }
  | .setcc cc d => s.flags.map fun f => s.setByte d (if cc.holds f then 1 else 0)
  | .movzx d r => some (s.setReg d ((s.getByte r).setWidth 64))

/-- Execute the bytes. -/
def exec (c : List UInt8) (s : State) : Option State := MachineCode.exec decode step c s

/-- The bytes are those of the instructions. -/
abbrev Encodes := MachineCode.Encodes decode

variable {s : State}

@[simp]
theorem setReg_reg (s : State) (r x : Reg) (v : BitVec 64) : (s.setReg r v).reg x = if x = r then v else s.reg x := rfl

@[simp]
theorem setReg_mem (s : State) (r : Reg) (v : BitVec 64) : (s.setReg r v).mem = s.mem := rfl

@[simp]
theorem setReg_flags (s : State) (r : Reg) (v : BitVec 64) : (s.setReg r v).flags = s.flags := rfl

@[simp]
theorem setAlu_reg (s : State) (r x : Reg) (v : BitVec 64) : (s.setAlu r v).reg x = if x = r then v else s.reg x := rfl

@[simp]
theorem setAlu_mem (s : State) (r : Reg) (v : BitVec 64) : (s.setAlu r v).mem = s.mem := rfl

end Amd64
