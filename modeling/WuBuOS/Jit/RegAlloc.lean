import WuBuOS.Jit.Encoder

/-!
# The register allocator

`jit/x86_regalloc.c`: which hardware register holds which virtual register, and the spill code.  A register
is allocated from the scratch pool, then from the callee-saved one, then from the argument registers; when
all are taken, the virtual register whose next use is farthest away is evicted.

A virtual register is an `int`, and the functions check it against `XRA_MAX_VREGS`.  The counters are
`int`s too, and wrap around.  A function that emits code returns its bytes last.
-/

namespace WuBuOS
namespace Jit

open Function (update)

def XRA_MAX_VREGS : Int := 32

def INT32_MAX : Int := 2147483647

/-- An `int`. -/
def cInt (x : Int) : Int := x.bmod (2 ^ 32)

inductive XRARegState where
  | free | alloced | spilled | reserved
  deriving DecidableEq

structure XRAPhysReg where
  vreg : Int
  state : XRARegState
  deriving DecidableEq

structure XRARegAlloc where
  regs : Wx86Reg → XRAPhysReg
  nextSpill : Int
  nCalleeSaved : Int
  frameSize : Int
  nArgs : Int
  vregConst : Int → Bool
  vregConstVal : Int → BitVec 64
  vregNextUse : Int → Int
  vregSpillSlot : Int → Int

/-- The registers in the order of their numbers. -/
def wx86Regs : List Wx86Reg :=
  [.rax, .rcx, .rdx, .rbx, .rsp, .rbp, .rsi, .rdi, .r8, .r9, .r10, .r11, .r12, .r13, .r14, .r15]

def scratchPool : List Wx86Reg := [.r10, .r11, .rcx, .r8, .r9, .rsi, .rdi, .rdx]

def SCRATCH_COUNT : Nat := 7

def calleePool : List Wx86Reg := [.rbx, .r12, .r13, .r14, .r15]

/-- `arg_regs` of `wx86_sysv_abi`. -/
def argRegs : List Wx86Reg := [.rdi, .rsi, .rdx, .rcx, .r8, .r9]

def xraInit (nArgs : Int) : XRARegAlloc where
  regs hw := ⟨-1, if hw = .rsp ∨ hw = .rbp ∨ hw = .rax then .reserved else .free⟩
  nextSpill := 0
  nCalleeSaved := 0
  frameSize := 0
  nArgs := if nArgs > 6 then 6 else nArgs
  vregConst _ := false
  vregConstVal _ := 0
  vregNextUse _ := -1
  vregSpillSlot _ := -1

namespace XRARegAlloc

/-- The first register of a pool that is free. -/
def firstFree (ra : XRARegAlloc) (pool : List Wx86Reg) : Option Wx86Reg :=
  pool.find? fun hw => (ra.regs hw).state = .free

/-- Give a register to a virtual register. -/
def give (ra : XRARegAlloc) (hw : Wx86Reg) (vreg : Int) : XRARegAlloc :=
  { ra with regs := update ra.regs hw ⟨vreg, .alloced⟩ }

end XRARegAlloc

def xraAlloc (ra : XRARegAlloc) (vreg : Int) : Option Wx86Reg × XRARegAlloc :=
  if vreg < 0 ∨ vreg ≥ XRA_MAX_VREGS then (none, ra)
  else
    match ra.firstFree (scratchPool.take SCRATCH_COUNT) with
    | some hw => (some hw, ra.give hw vreg)
    | none =>
      match ra.firstFree calleePool with
      | some hw => (some hw, { ra.give hw vreg with nCalleeSaved := cInt (ra.nCalleeSaved + 1) })
      | none =>
        match ra.firstFree (argRegs.take ra.nArgs.toNat) with
        | some hw => (some hw, ra.give hw vreg)
        -- All are taken.  The counter moves although no slot is given out.
        | none => (none, { ra with nextSpill := cInt (ra.nextSpill + 1) })

def xraSetNextUse (ra : XRARegAlloc) (vreg nextUse : Int) : XRARegAlloc :=
  if vreg ≥ 0 ∧ vreg < XRA_MAX_VREGS then
    { ra with vregNextUse := update ra.vregNextUse vreg nextUse }
  else ra

def xraIsConst (ra : XRARegAlloc) (vreg : Int) : Bool :=
  if vreg ≥ 0 ∧ vreg < XRA_MAX_VREGS then ra.vregConst vreg else false

def xraMarkConst (ra : XRARegAlloc) (vreg : Int) (val : BitVec 64) : XRARegAlloc :=
  if vreg ≥ 0 ∧ vreg < XRA_MAX_VREGS then
    { ra with
      vregConst := update ra.vregConst vreg true
      vregConstVal := update ra.vregConstVal vreg val }
  else ra

def xraAssignSpillSlot (ra : XRARegAlloc) (vreg : Int) : Int × XRARegAlloc :=
  if vreg < 0 ∨ vreg ≥ XRA_MAX_VREGS then (-1, ra)
  else if ra.vregSpillSlot vreg ≥ 0 then (ra.vregSpillSlot vreg, ra)
  else (ra.nextSpill,
    { ra with
      vregSpillSlot := update ra.vregSpillSlot vreg ra.nextSpill
      nextSpill := cInt (ra.nextSpill + 1) })

/-- `-(8 * (slot + 1))`. -/
def slotOffset (slot : Int) : BitVec 32 := .ofInt 32 (-(8 * (slot + 1)))

/-- The victim so far and the key of its next use. -/
structure Farthest where
  victim : Wx86Reg
  vreg : Int
  farthest : Int

/-- One turn of the loop in `xra_evict_farthest`. -/
def evictTurn (ra : XRARegAlloc) (best : Option Farthest) (hw : Wx86Reg) : Option Farthest :=
  if (ra.regs hw).state ≠ .alloced then best
  else
    let v := (ra.regs hw).vreg
    if v < 0 ∨ v ≥ XRA_MAX_VREGS then best
    else
      let nu := ra.vregNextUse v
      let key := if nu < 0 then INT32_MAX else nu
      match best with
      | none => some ⟨hw, v, key⟩
      | some b => if key > b.farthest then some ⟨hw, v, key⟩ else best

def XRARegAlloc.release (ra : XRARegAlloc) (hw : Wx86Reg) : XRARegAlloc :=
  { ra with regs := update ra.regs hw ⟨-1, .free⟩ }

def xraEvictFarthest (ra : XRARegAlloc) : Option Wx86Reg × XRARegAlloc × List UInt8 :=
  match wx86Regs.foldl (evictTurn ra) none with
  | none => (none, ra, [])
  | some b =>
    if xraIsConst ra b.vreg then (some b.victim, ra.release b.victim, [])
    else
      let (slot, ra') := xraAssignSpillSlot ra b.vreg
      (some b.victim, ra'.release b.victim, wx86MovMemReg .rbp (slotOffset slot) b.victim)

def xraAllocEvict (ra : XRARegAlloc) (vreg : Int) : Option Wx86Reg × XRARegAlloc × List UInt8 :=
  match xraAlloc ra vreg with
  | (some hw, ra) => (some hw, ra, [])
  | (none, ra) =>
    match xraEvictFarthest ra with
    | (none, ra, e) => (none, ra, e)
    | (some _, ra, e) => ((xraAlloc ra vreg).1, (xraAlloc ra vreg).2, e)

def xraFreeReg (ra : XRARegAlloc) (hw : Wx86Reg) : XRARegAlloc := ra.release hw

def xraGetReg (ra : XRARegAlloc) (vreg : Int) : Option Wx86Reg :=
  wx86Regs.find? fun hw => (ra.regs hw).vreg = vreg ∧ (ra.regs hw).state = .alloced

/-- The frame size is both stored and returned. -/
def xraFinalize (ra : XRARegAlloc) : Int × XRARegAlloc :=
  let calleePushBytes := cInt (ra.nCalleeSaved * 8)
  let spillBytes := cInt (ra.nextSpill * 8)
  let total := cInt (calleePushBytes + spillBytes)
  let frameSize := cInt ((cInt (total + 15)).tdiv 16 * 16)
  (frameSize, { ra with frameSize := frameSize })

def xraSpillLoad (ra : XRARegAlloc) (vreg : Int) : Option Wx86Reg × XRARegAlloc × List UInt8 :=
  match xraAllocEvict ra vreg with
  | (none, ra, e) => (none, ra, e)
  | (some hw, ra, e) =>
    if xraIsConst ra vreg then (some hw, ra, e ++ wx86MovRegImm64 hw (ra.vregConstVal vreg))
    else
      let (slot, ra) := xraAssignSpillSlot ra vreg
      (some hw, ra, e ++ wx86MovRegMem hw .rbp (slotOffset slot))

def xraSpillStore (ra : XRARegAlloc) (vreg : Int) : XRARegAlloc × List UInt8 :=
  match xraGetReg ra vreg with
  | none => (ra, [])
  | some hw =>
    let (slot, ra) := xraAssignSpillSlot ra vreg
    (ra, wx86MovMemReg .rbp (slotOffset slot) hw)

end Jit
end WuBuOS
