import Mathlib.Data.Int.NatAbs

/-!
# The code generator interface

`jit/jit_codegen.h`: one table of functions for each architecture, which emit code for operations on the neutral
registers.  `Call` is a call of one of the operations on registers, with the registers `CG_REG_0` to `CG_REG_13`,
which every back end maps to registers of its own, and `Call.result` is what it is documented to compute.
A `Target` is an architecture together with its table; `Target.Lawful` says that the code of a call does what the
call says and nothing else.
-/

namespace WuBuOS.CodeGen

/-- `CGReg`: `CG_REG_0` to `CG_REG_15`, and the aliases `CG_REG_SP`, `CG_REG_FP`, `CG_REG_LR` and `CG_REG_XZR`. -/
abbrev CGReg := Fin 20

/-- What the literals below rest on. -/
instance neZero_cgReg : NeZero 20 := ⟨by decide⟩

abbrev cgRegSp : CGReg := 16
abbrev cgRegFp : CGReg := 17
abbrev cgRegLr : CGReg := 18
abbrev cgRegXzr : CGReg := 19

inductive CGCC where
  | eq | ne | cs | cc | mi | pl | vs | vc | hi | ls | ge | lt | gt | le | al
  deriving DecidableEq

def CGCC.num : CGCC → Nat
  | .eq => 0 | .ne => 1 | .cs => 2 | .cc => 3 | .mi => 4 | .pl => 5 | .vs => 6 | .vc => 7
  | .hi => 8 | .ls => 9 | .ge => 10 | .lt => 11 | .gt => 12 | .le => 13 | .al => 14

/-- The functions of `CodeGenVTable` that operate on registers, by the code that they emit. -/
structure CodeGenVTable where
  addReg : CGReg → CGReg → CGReg → List UInt8
  subReg : CGReg → CGReg → CGReg → List UInt8
  mulReg : CGReg → CGReg → CGReg → List UInt8
  divReg : CGReg → CGReg → CGReg → List UInt8
  modReg : CGReg → CGReg → CGReg → List UInt8
  andReg : CGReg → CGReg → CGReg → List UInt8
  orrReg : CGReg → CGReg → CGReg → List UInt8
  eorReg : CGReg → CGReg → CGReg → List UInt8
  lslImm : CGReg → CGReg → UInt8 → List UInt8
  lsrImm : CGReg → CGReg → UInt8 → List UInt8
  asrImm : CGReg → CGReg → UInt8 → List UInt8
  movReg : CGReg → CGReg → List UInt8
  cmpRegCc : CGReg → CGReg → CGCC → List UInt8

/-! ## Calls -/

/-- `CG_REG_0` to `CG_REG_13`. -/
abbrev Operand := Fin 14

instance neZero_operand : NeZero 14 := ⟨by decide⟩

def Operand.cg (r : Operand) : CGReg := r.castLE (by decide)

inductive BinOp where
  | add | sub | mul | div | mod | and | orr | eor
  deriving DecidableEq

inductive ShiftOp where
  | lsl | lsr | asr
  deriving DecidableEq

/-- The conditions of signed comparisons. -/
inductive Cond where
  | eq | ne | lt | ge | gt | le
  deriving DecidableEq

def Cond.cc : Cond → CGCC
  | .eq => .eq | .ne => .ne | .lt => .lt | .ge => .ge | .gt => .gt | .le => .le

inductive Call where
  | bin (op : BinOp) (rd rn rm : Operand)
  | shift (op : ShiftOp) (rd rn : Operand) (n : Fin 64)
  | mov (rd rn : Operand)
  | cmp (cond : Cond) (rn rm : Operand)
  deriving DecidableEq

/-- The code of a call. -/
def Call.code (vt : CodeGenVTable) : Call → List UInt8
  | .bin .add rd rn rm => vt.addReg rd.cg rn.cg rm.cg
  | .bin .sub rd rn rm => vt.subReg rd.cg rn.cg rm.cg
  | .bin .mul rd rn rm => vt.mulReg rd.cg rn.cg rm.cg
  | .bin .div rd rn rm => vt.divReg rd.cg rn.cg rm.cg
  | .bin .mod rd rn rm => vt.modReg rd.cg rn.cg rm.cg
  | .bin .and rd rn rm => vt.andReg rd.cg rn.cg rm.cg
  | .bin .orr rd rn rm => vt.orrReg rd.cg rn.cg rm.cg
  | .bin .eor rd rn rm => vt.eorReg rd.cg rn.cg rm.cg
  | .shift .lsl rd rn n => vt.lslImm rd.cg rn.cg (.ofNat n)
  | .shift .lsr rd rn n => vt.lsrImm rd.cg rn.cg (.ofNat n)
  | .shift .asr rd rn n => vt.asrImm rd.cg rn.cg (.ofNat n)
  | .mov rd rn => vt.movReg rd.cg rn.cg
  | .cmp cond rn rm => vt.cmpRegCc rn.cg rm.cg cond.cc

/-! ## What a call computes -/

def BinOp.apply (a b : BitVec 64) : BinOp → BitVec 64
  | .add => a + b
  | .sub => a - b
  | .mul => a * b
  | .div => a.sdiv b
  | .mod => a.srem b
  | .and => a &&& b
  | .orr => a ||| b
  | .eor => a ^^^ b

def ShiftOp.apply (a : BitVec 64) (n : Nat) : ShiftOp → BitVec 64
  | .lsl => a <<< n
  | .lsr => a >>> n
  | .asr => a.sshiftRight n

def Cond.rel (a b : BitVec 64) : Cond → Bool
  | .eq => a == b
  | .ne => a != b
  | .lt => a.slt b
  | .ge => b.sle a
  | .gt => b.slt a
  | .le => a.sle b

/-- A truth value. -/
def truth (b : Bool) : BitVec 64 := if b then 1 else 0

/-- The register that gets the result. -/
def Call.dst : Call → Operand
  | .bin _ rd _ _ | .shift _ rd _ _ | .mov rd _ => rd
  | .cmp _ rn _ => rn

def Call.result (v : Operand → BitVec 64) : Call → BitVec 64
  | .bin op _ rn rm => op.apply (v rn) (v rm)
  | .shift op _ rn n => op.apply (v rn) n
  | .mov _ rn => v rn
  | .cmp cond rn rm => truth (cond.rel (v rn) (v rm))

/-- A divisor is not zero, and the quotient does not overflow. -/
def Call.Defined (v : Operand → BitVec 64) : Call → Prop
  | .bin .div _ rn rm | .bin .mod _ rn rm => v rm ≠ 0 ∧ ¬(v rn = BitVec.intMin 64 ∧ v rm = -1)
  | _ => True

/-! ## Targets -/

/-- An architecture: its states, what code does to them, and where the neutral registers and the stack pointer
are. -/
structure Target where
  State : Type
  vt : CodeGenVTable
  exec : List UInt8 → State → Option State
  reg : State → Operand → BitVec 64
  sp : State → BitVec 64

/-- An execution from `s` ends, with the value in the register and all else as it was. -/
def Target.Lands (T : Target) (s : T.State) (rd : Operand) (v : BitVec 64) (o : Option T.State) : Prop :=
  ∃ t, o = some t ∧ T.sp t = T.sp s ∧ T.reg t = Function.update (T.reg s) rd v

/-- The call leaves its result in its register, and all else as it was. -/
def Target.Does (T : Target) (c : Call) (s : T.State) : Prop :=
  T.Lands s c.dst (c.result (T.reg s)) (T.exec (c.code T.vt) s)

/-- **The code of a call does what the call says**, in every state in which the call is defined. -/
def Target.Lawful (T : Target) (c : Call) : Prop := ∀ s, c.Defined (T.reg s) → T.Does c s

/-- The code of a call always runs to its end, keeps the stack pointer and turns the registers into `f` of them. -/
def Target.Leaves (T : Target) (c : Call) (f : (Operand → BitVec 64) → Operand → BitVec 64) : Prop :=
  ∀ s, ∃ t, T.exec (c.code T.vt) s = some t ∧ T.sp t = T.sp s ∧ T.reg t = f (T.reg s)

theorem Target.Leaves.lawful_iff {T : Target} {c : Call} {f : (Operand → BitVec 64) → Operand → BitVec 64}
    (h : T.Leaves c f) : T.Lawful c ↔ ∀ s, c.Defined (T.reg s) →
      f (T.reg s) = Function.update (T.reg s) c.dst (c.result (T.reg s)) := by
  constructor
  · intro hlaw s hs
    obtain ⟨t, ht, -, hreg⟩ := h s
    obtain ⟨t', ht', -, hreg'⟩ := hlaw s hs
    obtain rfl : t = t' := Option.some.inj (ht.symm.trans ht')
    exact hreg.symm.trans hreg'
  · intro hf s hs
    obtain ⟨t, ht, hsp, hreg⟩ := h s
    exact ⟨t, ht, hsp, hreg.trans (hf s hs)⟩

end WuBuOS.CodeGen
