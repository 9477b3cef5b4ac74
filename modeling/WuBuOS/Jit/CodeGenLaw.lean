import WuBuOS.Jit.CodeGenArm64
import WuBuOS.Jit.CodeGenRv64
import WuBuOS.Jit.CodeGenX86

/-!
# The back ends

Which calls of the code generator interface each of the three tables implements.
-/

namespace WuBuOS.CodeGen

/-- `CodeGen.backend`: 0 to 2; the fourth, WebAssembly, has a stack in place of registers. -/
inductive Backend where
  | x86 | arm64 | rv64
  deriving DecidableEq

def Backend.target : Backend → Target
  | .x86 => x86Target
  | .arm64 => arm64Target
  | .rv64 => rv64Target

/-- When the code of a call does what the call says.

* x86-64 has no division and no remainder, shifts in place only, compares `CG_REG_0` only, and loses the second
  operand of a difference or a product whose register it is, unless it is the first one too.
* ARM64 computes a remainder in `CG_REG_10`.
* RV64 tells equal from unequal only: its conditions are those of a difference. -/
def Backend.Fits : Backend → Call → Prop
  | .x86 => X86Fits
  | .arm64 => Arm64Fits
  | .rv64 => Rv64Fits

/-- **A back end does what a call says exactly when the call fits it.** -/
theorem backend_lawful_iff (b : Backend) (c : Call) : b.target.Lawful c ↔ b.Fits c := by
  cases b with
  | x86 => exact x86_lawful_iff c
  | arm64 => exact arm64_lawful_iff c
  | rv64 => exact rv64_lawful_iff c

/-- `sub_reg(CG_REG_1, CG_REG_2, CG_REG_1)` on x86-64, with 0 and 1 in the two registers, leaves 0. -/
theorem backend_sub_overwrites : ¬∀ (b : Backend) (c : Call), b.target.Lawful c := fun h => by
  obtain ⟨s, hs⟩ := x86_contents fun r => if r = 2 then 1 else 0
  have hvals := congrFun ((x86_moved_leaves (.inl rfl) 1 2 1).lawful_iff.mp (h .x86 _) s trivial) 1
  rw [hs] at hvals
  exact absurd hvals (by decide)

end WuBuOS.CodeGen
