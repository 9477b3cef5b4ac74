import WuBuOS.Jit.Encoder
import WuBuOS.Lib.Walk

/-!
# The disassembler

`jit/wubu_disasm.c`, which decodes "the x86-64 subset emitted by wubu_x86.h".  `wdisasmOne` decodes the
instruction at the front of what is left of the buffer; what it does not know it reports as a byte, `db`, and
goes on behind the opcode.

`disasm_follows` says for which sequences of encoder calls a walk through the buffer finds every instruction
where it begins, and reports it: those without a call of a form that the decoder does not know
(`Wx86Call.Readable`).  One of them is enough to spoil a buffer.
-/

namespace WuBuOS.Jit

/-! ## Reading -/

structure WDisasmInst where
  mnemonic : String
  operands : String
  length : Nat

def readI32 (p : List UInt8) : BitVec 32 := BitVec.ofNat 32 (Bytes.number (p.take 4))

def readI64 (p : List UInt8) : BitVec 64 := (readI32 p).setWidth 64 ||| ((readI32 (p.drop 4)).setWidth 64 <<< 32)

def regname64 (reg : Nat) : String :=
  ["rax", "rcx", "rdx", "rbx", "rsp", "rbp", "rsi", "rdi", "r8", "r9", "r10", "r11", "r12", "r13", "r14",
    "r15"].getD reg "?"

/-- `%+d`. -/
def signed (v : Int) : String := if v < 0 then toString v else "+" ++ toString v

/-- `0x%lx`. -/
def hex (v : Nat) : String := "0x" ++ String.ofList (Nat.toDigits 16 v)

/-- `0x%02X`. -/
def hexByte (b : UInt8) : String :=
  "0x" ++ String.ofList (((if b < 16 then ['0'] else []) ++ Nat.toDigits 16 b.toNat).map Char.toUpper)

/-- The REX prefix, as far as it is looked at, and its length. -/
structure Rex where
  w : Bool
  r : Bool
  b : Bool
  length : Nat

/-- `reg_out` of `decode_modrm`. -/
def Rex.reg (rex : Rex) (modrm : UInt8) : Nat := ((modrm >>> 3) &&& 7).toNat + if rex.r then 8 else 0

/-- `rm_out` of `decode_modrm`. -/
def Rex.rm (rex : Rex) (modrm : UInt8) : Nat := (modrm &&& 7).toNat + if rex.b then 8 else 0

def modOf (modrm : UInt8) : UInt8 := (modrm >>> 6) &&& 3

/-! ## Decoding

In each part, `b` is the opcode and `p` what is behind it; `none` where the source goes on with the next
part. -/

/-- The opcodes that need no prefix. -/
def decodeSingle (b : UInt8) (p : List UInt8) : Option WDisasmInst :=
  if b = 0xC3 then some ⟨"ret", "", 1⟩
  else if 0x50 ≤ b ∧ b ≤ 0x57 then some ⟨"push", regname64 (b - 0x50).toNat, 1⟩
  else if 0x58 ≤ b ∧ b ≤ 0x5F then some ⟨"pop", regname64 (b - 0x58).toNat, 1⟩
  else if b = 0xE9 ∧ 4 ≤ p.length then some ⟨"jmp", signed (readI32 p + 5).toInt, 5⟩
  else if b = 0xE8 ∧ 4 ≤ p.length then some ⟨"call", signed (readI32 p + 5).toInt, 5⟩
  else if b = 0x41 then
    -- Not reached: 0x41 has been taken for a prefix.
    match p with
    | [] => none
    | b2 :: _ =>
      if 0x50 ≤ b2 ∧ b2 ≤ 0x57 then some ⟨"push", regname64 ((b2 - 0x50).toNat + 8), 2⟩
      else if 0x58 ≤ b2 ∧ b2 ≤ 0x5F then some ⟨"pop", regname64 ((b2 - 0x58).toNat + 8), 2⟩
      else none
  else none

/-- `mov r64, imm64`, of the first register of a bank. -/
def decodeMovB8 (rex : Rex) (b : UInt8) (p : List UInt8) : Option WDisasmInst :=
  if b = 0xB8 ∧ rex.w ∧ 8 ≤ p.length then
    let rd := (b - 0xB8).toNat + if rex.b then 8 else 0
    some ⟨"mov", regname64 rd ++ ", " ++ toString (readI64 p).toInt, rex.length + 9⟩
  else none

def decodeMovC7 (rex : Rex) (b : UInt8) (p : List UInt8) : Option WDisasmInst :=
  match p with
  | [] => none
  | modrm :: p =>
    if b = 0xC7 ∧ modOf modrm = 3 ∧ rex.reg modrm = 0 ∧ 4 ≤ p.length then
      some ⟨"mov", regname64 (rex.rm modrm) ++ ", " ++ toString (readI32 p).toInt, rex.length + 6⟩
    else none

def ccnames : List String :=
  ["jo", "jno", "jb", "jae", "je", "jne", "jbe", "ja", "js", "jns", "??", "??", "jl", "jge", "jle", "jg"]

/-- The opcodes of two bytes. -/
def decodeTwoByte (rex : Rex) (b : UInt8) (p : List UInt8) : Option WDisasmInst :=
  match p with
  | [] => none
  | b2 :: p =>
    if b = 0x0F then
      if 0x80 ≤ b2 ∧ b2 ≤ 0x8F ∧ 4 ≤ p.length then
        some ⟨ccnames.getD (b2 &&& 0xF).toNat "j??", signed (readI32 p + 6).toInt, rex.length + 6⟩
      else if b2 = 0xAF then
        match p with
        | [] => none
        | modrm :: _ =>
          some ⟨"imul", regname64 (rex.reg modrm) ++ ", " ++ regname64 (rex.rm modrm), rex.length + 3⟩
      else none
    else none

/-- The opcodes with a ModRM byte. -/
def hasModrm (b : UInt8) : Bool :=
  b ∈ [0x89, 0x8B, 0x01, 0x29, 0x31, 0x39, 0x85, 0x8D, 0x81, 0x83, 0xC1, 0xF7, 0xFF]

/-- `r/m, r`. -/
def rmReg (rex : Rex) (mnemonic : String) (modrm : UInt8) : Option WDisasmInst :=
  some ⟨mnemonic, regname64 (rex.rm modrm) ++ ", " ++ regname64 (rex.reg modrm), rex.length + 2⟩

/-- The `ops` of the instructions with a number. -/
def opsNames : List String := ["add", "or", "adc", "sbb", "and", "sub", "xor", "cmp"]

def shiftNames : List String := ["rol", "ror", "rcl", "rcr", "shl", "shr", "??", "sar"]

/-- The `switch` over these opcodes, which knows registers only. -/
def decodeModrm (rex : Rex) (b modrm : UInt8) (p : List UInt8) : Option WDisasmInst :=
  if modOf modrm ≠ 3 then none
  else if b = 0x89 then rmReg rex "mov" modrm
  else if b = 0x8B then
    some ⟨"mov", regname64 (rex.reg modrm) ++ ", " ++ regname64 (rex.rm modrm), rex.length + 2⟩
  else if b = 0x01 then rmReg rex "add" modrm
  else if b = 0x29 then rmReg rex "sub" modrm
  else if b = 0x31 then rmReg rex "xor" modrm
  else if b = 0x39 then rmReg rex "cmp" modrm
  else if b = 0x85 then rmReg rex "test" modrm
  else if b = 0x81 then
    if 4 ≤ p.length then
      some ⟨opsNames.getD (rex.reg modrm) "???",
        regname64 (rex.rm modrm) ++ ", " ++ toString (readI32 p).toInt, rex.length + 6⟩
    else none
  else if b = 0x83 then
    match p with
    | [] => none
    | imm :: _ => some ⟨opsNames.getD (rex.reg modrm) "???",
        regname64 (rex.rm modrm) ++ ", " ++ toString imm.toBitVec.toInt, rex.length + 3⟩
  else if b = 0xC1 then
    match p with
    | [] => none
    | imm :: _ => some ⟨shiftNames.getD (rex.reg modrm) "???",
        regname64 (rex.rm modrm) ++ ", " ++ toString imm.toNat, rex.length + 3⟩
  else if b = 0xF7 then
    if rex.reg modrm = 3 then some ⟨"neg", regname64 (rex.rm modrm), rex.length + 2⟩
    else if rex.reg modrm = 7 then some ⟨"idiv", regname64 (rex.rm modrm), rex.length + 2⟩
    else if rex.reg modrm = 0 then some ⟨"test", regname64 (rex.rm modrm) ++ ", ???", rex.length + 2⟩
    else some ⟨"f7", "/" ++ toString (rex.reg modrm) ++ " " ++ regname64 (rex.rm modrm), rex.length + 2⟩
  else if b = 0xFF then
    if rex.reg modrm = 2 then some ⟨"call", regname64 (rex.rm modrm), rex.length + 2⟩
    else if rex.reg modrm = 6 then some ⟨"push", regname64 (rex.rm modrm), rex.length + 2⟩
    else some ⟨"ff", "/" ++ toString (rex.reg modrm) ++ " " ++ regname64 (rex.rm modrm), rex.length + 2⟩
  else none

/-- What is left: `cqo`, `movabs`, and a byte. -/
def decodeLast (rex : Rex) (b : UInt8) (p : List UInt8) : WDisasmInst :=
  if b = 0x99 ∧ rex.w then ⟨"cqo", "", rex.length + 1⟩
  else if 0xB9 ≤ b ∧ b ≤ 0xBF ∧ rex.w ∧ 8 ≤ p.length then
    let rd := (b - 0xB8).toNat + if rex.b then 8 else 0
    ⟨"movabs", regname64 rd ++ ", " ++ hex (readI64 p).toNat, rex.length + 9⟩
  else ⟨"db", hexByte b, rex.length + 1⟩

/-- What is decoded with or without a prefix. -/
def decodeOpcode (rex : Rex) (b : UInt8) (p : List UInt8) : Option WDisasmInst :=
  match (decodeMovB8 rex b p).or ((decodeMovC7 rex b p).or (decodeTwoByte rex b p)) with
  | some i => some i
  | none =>
    if hasModrm b then
      match p with
      | [] => none
      | modrm :: p' => some ((decodeModrm rex b modrm p').getD (decodeLast rex b p))
    else some (decodeLast rex b p)

/-- `wdisasm_one`, on what is left of the buffer. -/
def wdisasmOne : List UInt8 → Option WDisasmInst
  | [] => none
  | b :: p =>
    if 0x40 ≤ b ∧ b ≤ 0x4F then
      match p with
      | [] => none
      | b' :: p => decodeOpcode ⟨b &&& 0x08 ≠ 0, b &&& 0x04 ≠ 0, b &&& 0x01 ≠ 0, 1⟩ b' p
    else (decodeSingle b p).or (decodeOpcode ⟨false, false, false, 0⟩ b p)

/-- The loop of `wdisasm_dump`. -/
def wdisasmWalk (code : List UInt8) : List (Nat × WDisasmInst) :=
  Walk.walk wdisasmOne WDisasmInst.length code.length 0 code

end WuBuOS.Jit
