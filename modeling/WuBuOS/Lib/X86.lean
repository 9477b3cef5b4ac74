import Mathlib.Data.Int.NatAbs
import Mathlib.Data.Int.Order.Basic
import Mathlib.Tactic.Common

/-!
# Straight-line x86-64 code

The part of the x86-64 instruction set that a simple expression compiler uses, one constructor an
instruction, and what a list of instructions does to a machine state (`X86.run`).  `none` is a fault:
a division that overflows, a call to an address that holds no code, a branch on flags that no
comparison has set.

The fourteen general registers hold 64-bit values.  The stack pointer and the frame pointer are kept
apart as integers, and memory is a function from integers to bytes: a stack is as deep as the code
needs it.

The facts that proofs about compiled code use are of two kinds.  A register that no instruction of the
code names as a target keeps its value (`X86.run_reg`).  Code that pushes a value and later pops it
again, with code in between that leaves the stack as it was above its own start (`X86.Frame`), finds the
value (`X86.run_pop`).
-/

namespace X86

/-- The general registers. -/
inductive Reg where
  | rax | rcx | rdx | rbx | rsi | rdi | r8 | r9 | r10 | r11 | r12 | r13 | r14 | r15
  deriving DecidableEq

/-- The conditions of signed comparisons. -/
inductive Cc where
  | e | ne | l | ge | le | g
  deriving DecidableEq

/-- The flags that these conditions read. -/
structure Flags where
  zf : Bool
  sf : Bool
  of : Bool

structure State where
  reg : Reg → BitVec 64
  rsp : Int
  rbp : Int
  mem : Int → BitVec 8
  /-- `none` after an instruction whose flags are not modelled. -/
  flags : Option Flags

/-- What an address is relative to. -/
inductive Base where
  | rbp
  | reg (r : Reg)
  deriving DecidableEq

inductive Instr where
  | movRegImm64 (dst : Reg) (imm : BitVec 64)
  | movRegReg (dst src : Reg)
  | movRegMem (dst : Reg) (base : Base) (off : Int)
  | movzxByteRegMem (dst : Reg) (base : Base) (off : Int)
  | push (r : Reg)
  | pop (r : Reg)
  | zeroReg (r : Reg)
  | negReg (r : Reg)
  | notReg (r : Reg)
  | addRegReg (dst src : Reg)
  | subRegReg (dst src : Reg)
  | imulRegReg (dst src : Reg)
  | andRegReg (dst src : Reg)
  | orRegReg (dst src : Reg)
  | xorRegReg (dst src : Reg)
  | cqo
  | idivReg (r : Reg)
  | sarRegImm8 (r : Reg) (imm : Nat)
  | shlRaxCl
  | sarRaxCl
  | cmpRegReg (a b : Reg)
  | cmpRegImm32 (a : Reg) (imm : BitVec 64)
  | testRegReg (a b : Reg)
  | setccR8 (cc : Cc) (dst : Reg)
  | movzxEaxAl
  | cmovcc (cc : Cc) (dst src : Reg)
  | callReg (r : Reg)
  deriving DecidableEq

/-! ## Memory -/

/-- The eight bytes from `a`, the least significant first. -/
def load (m : Int → BitVec 8) (a : Int) : BitVec 64 :=
  BitVec.ofNat 64 ((m a).toNat + 2 ^ 8 * (m (a + 1)).toNat + 2 ^ 16 * (m (a + 2)).toNat +
    2 ^ 24 * (m (a + 3)).toNat + 2 ^ 32 * (m (a + 4)).toNat + 2 ^ 40 * (m (a + 5)).toNat +
    2 ^ 48 * (m (a + 6)).toNat + 2 ^ 56 * (m (a + 7)).toNat)

def store (m : Int → BitVec 8) (a : Int) (v : BitVec 64) : Int → BitVec 8 :=
  fun x => if a ≤ x ∧ x < a + 8 then v.extractLsb' (8 * (x - a).toNat) 8 else m x

theorem load_congr {m m' : Int → BitVec 8} {a : Int} (h : ∀ x, a ≤ x → x < a + 8 → m' x = m x) :
    load m' a = load m a := by
  simp only [load]
  rw [h (a + 7) (by omega) (by omega), h (a + 6) (by omega) (by omega), h (a + 5) (by omega) (by omega),
    h (a + 4) (by omega) (by omega), h (a + 3) (by omega) (by omega), h (a + 2) (by omega) (by omega),
    h (a + 1) (by omega) (by omega), h a (by omega) (by omega)]

theorem store_outside {m : Int → BitVec 8} {a x : Int} {v : BitVec 64} (h : x < a ∨ a + 8 ≤ x) :
    store m a v x = m x := if_neg (by omega)

theorem store_inside (m : Int → BitVec 8) (a : Int) (v : BitVec 64) {k : Nat} (h : k < 8) :
    (store m a v (a + k)).toNat = v.toNat / 2 ^ (8 * k) % 2 ^ 8 := by
  have hk : (a + (k : Int) - a).toNat = k := by omega
  rw [store, if_pos (by omega), hk, BitVec.extractLsb'_toNat, Nat.shiftRight_eq_div_pow]

/-- **What is stored is loaded.** -/
theorem load_store (m : Int → BitVec 8) (a : Int) (v : BitVec 64) : load (store m a v) a = v := by
  have h0 := store_inside m a v (show 0 < 8 by omega)
  have h1 := store_inside m a v (show 1 < 8 by omega)
  have h2 := store_inside m a v (show 2 < 8 by omega)
  have h3 := store_inside m a v (show 3 < 8 by omega)
  have h4 := store_inside m a v (show 4 < 8 by omega)
  have h5 := store_inside m a v (show 5 < 8 by omega)
  have h6 := store_inside m a v (show 6 < 8 by omega)
  have h7 := store_inside m a v (show 7 < 8 by omega)
  rw [show a + (0 : Nat) = a by omega] at h0
  refine BitVec.eq_of_toNat_eq ?_
  rw [load, BitVec.toNat_ofNat, h0, show a + 1 = a + (1 : Nat) from rfl, h1,
    show a + 2 = a + (2 : Nat) from rfl, h2, show a + 3 = a + (3 : Nat) from rfl, h3,
    show a + 4 = a + (4 : Nat) from rfl, h4, show a + 5 = a + (5 : Nat) from rfl, h5,
    show a + 6 = a + (6 : Nat) from rfl, h6, show a + 7 = a + (7 : Nat) from rfl, h7]
  omega

/-! ## Execution -/

/-- The flags of `a - b`. -/
def cmpFlags (a b : BitVec 64) : Flags where
  zf := a - b == 0
  sf := (a - b).msb
  of := (a.msb != b.msb) && ((a - b).msb != a.msb)

/-- The flags of `a & b`. -/
def testFlags (a b : BitVec 64) : Flags where
  zf := a &&& b == 0
  sf := (a &&& b).msb
  of := false

def Cc.holds : Cc → Flags → Bool
  | .e, f => f.zf
  | .ne, f => !f.zf
  | .l, f => f.sf != f.of
  | .ge, f => f.sf == f.of
  | .le, f => f.zf || f.sf != f.of
  | .g, f => !f.zf && f.sf == f.of

def State.setReg (s : State) (r : Reg) (v : BitVec 64) : State :=
  { s with reg := fun x => if x = r then v else s.reg x }

/-- The result of an arithmetic instruction, whose flags are not modelled. -/
def State.setAlu (s : State) (r : Reg) (v : BitVec 64) : State := { s.setReg r v with flags := none }

def State.addr (s : State) : Base → Int → Int
  | .rbp, off => s.rbp + off
  | .reg r, off => (s.reg r).toNat + off

/-- `idiv`: the 128-bit dividend in `rdx:rax`. -/
def State.idiv (s : State) (d : BitVec 64) : Option State :=
  let n : Int := (s.reg .rdx).toInt * 2 ^ 64 + (s.reg .rax).toNat
  let q := n.tdiv d.toInt
  if d.toInt = 0 ∨ q < -2 ^ 63 ∨ 2 ^ 63 ≤ q then none
  else some ((s.setAlu .rax (.ofInt 64 q)).setReg .rdx (.ofInt 64 (n.tmod d.toInt)))

/-- One instruction. -/
def step (s : State) : Instr → Option State
  | .movRegImm64 d v => some (s.setReg d v)
  | .movRegReg d r => some (s.setReg d (s.reg r))
  | .movRegMem d b off => some (s.setReg d (load s.mem (s.addr b off)))
  | .movzxByteRegMem d b off => some (s.setReg d ((s.mem (s.addr b off)).setWidth 64))
  | .push r => some { s with rsp := s.rsp - 8, mem := store s.mem (s.rsp - 8) (s.reg r) }
  | .pop r => some { s.setReg r (load s.mem s.rsp) with rsp := s.rsp + 8 }
  | .zeroReg r => some (s.setAlu r 0)
  | .negReg r => some (s.setAlu r (-s.reg r))
  | .notReg r => some (s.setReg r (~~~s.reg r))
  | .addRegReg d r => some (s.setAlu d (s.reg d + s.reg r))
  | .subRegReg d r => some (s.setAlu d (s.reg d - s.reg r))
  | .imulRegReg d r => some (s.setAlu d (s.reg d * s.reg r))
  | .andRegReg d r => some (s.setAlu d (s.reg d &&& s.reg r))
  | .orRegReg d r => some (s.setAlu d (s.reg d ||| s.reg r))
  | .xorRegReg d r => some (s.setAlu d (s.reg d ^^^ s.reg r))
  | .cqo => some (s.setReg .rdx (if (s.reg .rax).msb then -1 else 0))
  | .idivReg r => s.idiv (s.reg r)
  | .sarRegImm8 r n => some (s.setAlu r ((s.reg r).sshiftRight (n % 64)))
  | .shlRaxCl => some (s.setAlu .rax (s.reg .rax <<< ((s.reg .rcx).toNat % 64)))
  | .sarRaxCl => some (s.setAlu .rax ((s.reg .rax).sshiftRight ((s.reg .rcx).toNat % 64)))
  | .cmpRegReg a b => some { s with flags := some (cmpFlags (s.reg a) (s.reg b)) }
  | .cmpRegImm32 a v => some { s with flags := some (cmpFlags (s.reg a) v) }
  | .testRegReg a b => some { s with flags := some (testFlags (s.reg a) (s.reg b)) }
  | .setccR8 cc d => s.flags.map fun f =>
      s.setReg d (s.reg d &&& ~~~0xFF#64 ||| if cc.holds f then 1 else 0)
  | .movzxEaxAl => some (s.setReg .rax (s.reg .rax &&& 0xFF#64))
  | .cmovcc cc d r => s.flags.map fun f => s.setReg d (if cc.holds f then s.reg r else s.reg d)
  -- The code that is modelled has no other code to call.
  | .callReg _ => none

/-- The instructions one after the other. -/
def run : List Instr → State → Option State
  | [], s => some s
  | i :: c, s => (step s i).bind (run c)

variable {s s' t : State} {c c' : List Instr} {i : Instr} {r d : Reg}

@[simp]
theorem run_nil (s : State) : run [] s = some s := rfl

@[simp]
theorem run_cons (i : Instr) (c : List Instr) (s : State) : run (i :: c) s = (step s i).bind (run c) := rfl

theorem run_append : ∀ (c c' : List Instr) (s : State), run (c ++ c') s = (run c s).bind (run c')
  | [], _, _ => rfl
  | i :: c, c', s => by
    rw [List.cons_append, run_cons, run_cons, Option.bind_assoc]
    exact congrArg _ (funext fun t => run_append c c' t)

/-- Code in two parts. -/
theorem run_append_of (h : run c s = some t) : run (c ++ c') s = run c' t := by
  rw [run_append, h]
  rfl

theorem run_append_inv (h : run (c ++ c') s = some s') : ∃ t, run c s = some t ∧ run c' t = some s' := by
  rw [run_append] at h
  exact Option.bind_eq_some_iff.1 h

@[simp]
theorem setReg_reg (s : State) (r x : Reg) (v : BitVec 64) : (s.setReg r v).reg x = if x = r then v else s.reg x := rfl

@[simp]
theorem setReg_rsp (s : State) (r : Reg) (v : BitVec 64) : (s.setReg r v).rsp = s.rsp := rfl

@[simp]
theorem setReg_rbp (s : State) (r : Reg) (v : BitVec 64) : (s.setReg r v).rbp = s.rbp := rfl

@[simp]
theorem setReg_mem (s : State) (r : Reg) (v : BitVec 64) : (s.setReg r v).mem = s.mem := rfl

@[simp]
theorem setReg_flags (s : State) (r : Reg) (v : BitVec 64) : (s.setReg r v).flags = s.flags := rfl

@[simp]
theorem setAlu_reg (s : State) (r x : Reg) (v : BitVec 64) : (s.setAlu r v).reg x = if x = r then v else s.reg x := rfl

@[simp]
theorem setAlu_rsp (s : State) (r : Reg) (v : BitVec 64) : (s.setAlu r v).rsp = s.rsp := rfl

@[simp]
theorem setAlu_rbp (s : State) (r : Reg) (v : BitVec 64) : (s.setAlu r v).rbp = s.rbp := rfl

@[simp]
theorem setAlu_mem (s : State) (r : Reg) (v : BitVec 64) : (s.setAlu r v).mem = s.mem := rfl

/-! ## The registers that code may change -/

/-- The target registers of an instruction. -/
def Instr.targets : Instr → List Reg
  | .movRegImm64 d _ | .movRegReg d _ | .movRegMem d _ _ | .movzxByteRegMem d _ _ | .pop d | .zeroReg d
  | .negReg d | .notReg d | .addRegReg d _ | .subRegReg d _ | .imulRegReg d _ | .andRegReg d _
  | .orRegReg d _ | .xorRegReg d _ | .sarRegImm8 d _ | .setccR8 _ d | .cmovcc _ d _ => [d]
  | .cqo => [.rdx]
  | .idivReg _ => [.rax, .rdx]
  | .shlRaxCl | .sarRaxCl | .movzxEaxAl => [.rax]
  | .push _ | .cmpRegReg _ _ | .cmpRegImm32 _ _ | .testRegReg _ _ | .callReg _ => []

/-- The code has `r` among its targets. -/
def Writes (c : List Instr) (r : Reg) : Prop := ∃ i ∈ c, r ∈ i.targets

@[simp]
theorem writes_nil : ¬Writes [] r := fun ⟨_, h, _⟩ => nomatch h

@[simp]
theorem writes_cons : Writes (i :: c) r ↔ r ∈ i.targets ∨ Writes c r := by
  simp [Writes]

@[simp]
theorem writes_append : Writes (c ++ c') r ↔ Writes c r ∨ Writes c' r := by
  simp only [Writes, List.mem_append, or_and_right, exists_or]

theorem step_reg (h : step s i = some s') (hr : r ∉ i.targets) : s'.reg r = s.reg r := by
  cases i <;> simp only [step, Option.some.injEq, Option.map_eq_some_iff, State.idiv,
    Option.ite_none_left_eq_some, reduceCtorEq] at h <;>
    simp only [Instr.targets, List.mem_cons, List.not_mem_nil, or_false, not_or] at hr
  case setccR8 | cmovcc =>
    obtain ⟨f, -, rfl⟩ := h
    simp [hr]
  case idivReg =>
    obtain ⟨-, rfl⟩ := h
    simp [hr]
  all_goals
    subst h
    simp [hr]

/-- **A register that the code does not target keeps its value.** -/
theorem run_reg : ∀ {c : List Instr} {s : State}, run c s = some s' → ¬Writes c r → s'.reg r = s.reg r
  | [], s, h, _ => by rw [Option.some.inj h]
  | i :: c, s, h, hr => by
    obtain ⟨t, ht, h⟩ := Option.bind_eq_some_iff.1 h
    rw [writes_cons, not_or] at hr
    exact (run_reg h hr.2).trans (step_reg ht hr.1)

/-! ## Code that leaves the stack as it was -/

/-- The stack and frame pointers are the same, and so is memory from the stack pointer up. -/
structure Frame (s s' : State) : Prop where
  rsp : s'.rsp = s.rsp
  rbp : s'.rbp = s.rbp
  mem : ∀ a, s.rsp ≤ a → s'.mem a = s.mem a

theorem Frame.refl (s : State) : Frame s s := ⟨rfl, rfl, fun _ _ => rfl⟩

theorem Frame.trans (h : Frame s t) (h' : Frame t s') : Frame s s' :=
  ⟨h'.rsp.trans h.rsp, h'.rbp.trans h.rbp, fun a ha => (h'.mem a (h.rsp ▸ ha)).trans (h.mem a ha)⟩

/-- What is in memory from the stack pointer up is loaded as before. -/
theorem Frame.load (h : Frame s s') {a : Int} (ha : s.rsp ≤ a) : load s'.mem a = load s.mem a :=
  load_congr fun x hx _ => h.mem x (by omega)

theorem Frame.setReg (h : Frame s s') (r : Reg) (v : BitVec 64) : Frame s (s'.setReg r v) :=
  ⟨h.rsp, h.rbp, h.mem⟩

/-- The state after a push. -/
def State.pushed (s : State) (v : BitVec 64) : State :=
  { s with rsp := s.rsp - 8, mem := store s.mem (s.rsp - 8) v }

/-- The state after the pop that undoes it. -/
def State.popped (s : State) (d : Reg) (v : BitVec 64) : State :=
  { s.setReg d v with rsp := s.rsp + 8 }

@[simp]
theorem step_push (s : State) (r : Reg) : step s (.push r) = some (s.pushed (s.reg r)) := rfl

/-- **A pop finds what was pushed**, if the code in between leaves the stack as it was. -/
theorem step_pop {v : BitVec 64} (h : Frame (s.pushed v) t) (d : Reg) :
    step t (.pop d) = some (t.popped d v) ∧ Frame s (t.popped d v) := by
  have hl : load t.mem t.rsp = v := by
    rw [h.rsp, h.load le_rfl]
    exact load_store s.mem (s.rsp - 8) v
  refine ⟨?_, ⟨?_, h.rbp, fun a ha => ?_⟩⟩
  · rw [step, hl]
    rfl
  · show t.rsp + 8 = s.rsp
    have : t.rsp = s.rsp - 8 := h.rsp
    omega
  · have hlo : (s.pushed v).rsp ≤ a := by
      show s.rsp - 8 ≤ a
      omega
    exact (h.mem a hlo).trans (store_outside (by omega))

@[simp]
theorem popped_reg (s : State) (d x : Reg) (v : BitVec 64) : (s.popped d v).reg x = if x = d then v else s.reg x := rfl

@[simp]
theorem pushed_reg (s : State) (v : BitVec 64) (x : Reg) : (s.pushed v).reg x = s.reg x := rfl

/-- What was in memory from the stack pointer up is still there after a push. -/
theorem load_pushed (s : State) (v : BitVec 64) {a : Int} (ha : s.rsp ≤ a) :
    X86.load (s.pushed v).mem a = X86.load s.mem a :=
  load_congr fun _ hx _ => store_outside (by omega)

/-! ## Comparisons -/

/-- The condition, as it is meant: a relation of signed numbers. -/
def Cc.rel (cc : Cc) (a b : BitVec 64) : Bool :=
  match cc with
  | .e => a == b
  | .ne => a != b
  | .l => a.slt b
  | .ge => b.sle a
  | .le => a.sle b
  | .g => b.slt a

/-- A difference that may overflow. -/
theorem bmod_sub {x y : Int} (hx : -2 ^ 63 ≤ x) (hx' : x < 2 ^ 63) (hy : -2 ^ 63 ≤ y) (hy' : y < 2 ^ 63) :
    (x - y).bmod (2 ^ 64) = if x - y < -2 ^ 63 then x - y + 2 ^ 64
      else if 2 ^ 63 ≤ x - y then x - y - 2 ^ 64 else x - y := by
  rw [Int.bmod]
  split <;> split <;> try split
  all_goals omega

/-- The sign of a difference, corrected by its overflow. -/
theorem cmpFlags_slt (a b : BitVec 64) : ((cmpFlags a b).sf != (cmpFlags a b).of) = a.slt b := by
  have ha := a.toInt_lt
  have ha' := a.le_toInt
  have hb := b.toInt_lt
  have hb' := b.le_toInt
  have hd : (a - b).toInt = (a.toInt - b.toInt).bmod (2 ^ 64) := BitVec.toInt_sub ..
  rw [bmod_sub ha' ha hb' hb] at hd
  simp only [cmpFlags, BitVec.msb_eq_toInt, BitVec.slt]
  generalize (a - b).toInt = z at *
  generalize a.toInt = x at *
  generalize b.toInt = y at *
  by_cases h1 : x < 0 <;> by_cases h2 : y < 0 <;> by_cases h3 : z < 0 <;> by_cases h4 : x < y <;>
    simp [h1, h2, h3, h4]
  all_goals
    revert hd
    split <;> try split
    all_goals omega

/-- **The flags of a comparison tell the relation.** -/
theorem Cc.holds_cmpFlags (cc : Cc) (a b : BitVec 64) : cc.holds (cmpFlags a b) = cc.rel a b := by
  have hz : (cmpFlags a b).zf = (a == b) := by
    rw [cmpFlags, Bool.eq_iff_iff]
    simp [BitVec.sub_eq_iff_eq_add]
  have hlt := cmpFlags_slt a b
  have hge : ((cmpFlags a b).sf == (cmpFlags a b).of) = !a.slt b := by
    rw [← hlt, bne, Bool.not_not]
  cases cc with
  | e => exact hz
  | ne => rw [Cc.holds, hz]; rfl
  | l => exact hlt
  | ge => rw [Cc.holds, hge, Cc.rel, BitVec.sle_eq_not_slt]
  | le => rw [Cc.holds, hz, hlt, Bool.or_comm, Cc.rel, BitVec.sle_eq_slt_or_eq]
  | g =>
    rw [Cc.holds, hz, hge, Cc.rel, ← Bool.not_or, Bool.or_comm, ← BitVec.sle_eq_slt_or_eq,
      BitVec.sle_eq_not_slt, Bool.not_not]

/-- `test r, r` sets the flags that tell zero from the rest as a comparison with zero does. -/
theorem Cc.holds_testFlags {cc : Cc} (h : cc = .e ∨ cc = .ne) (a : BitVec 64) :
    cc.holds (testFlags a a) = cc.rel a 0 := by
  rcases h with rfl | rfl <;> simp [Cc.holds, testFlags, Cc.rel, bne]

/-- A condition as a number. -/
def ofBool (b : Bool) : BitVec 64 := if b then 1 else 0

/-- `setcc` and `movzx`. -/
theorem run_setcc {f : Flags} (cc : Cc) (h : s.flags = some f) :
    ∃ t, run [.setccR8 cc .rax, .movzxEaxAl] s = some t ∧ t.reg .rax = ofBool (cc.holds f) := by
  have hlow (x : BitVec 64) (b : Bool) : (x &&& ~~~0xFF#64 ||| if b then 1 else 0) &&& 0xFF#64 = ofBool b := by
    rw [BitVec.and_or_distrib_right, BitVec.and_assoc, show ~~~0xFF#64 &&& 0xFF#64 = 0#64 by decide]
    cases b <;> simp [ofBool]
  refine ⟨_, by rw [run_cons, step, h]; rfl, ?_⟩
  simp only [setReg_reg, if_true]
  exact hlow _ _

/-! ## Division -/

/-- `cqo` extends the sign. -/
theorem toInt_cqo (a : BitVec 64) :
    (if a.msb then -1 else 0 : BitVec 64).toInt * 2 ^ 64 + (a.toNat : Int) = a.toInt := by
  rw [BitVec.toInt_eq_msb_cond a]
  split
  case isTrue =>
    rw [show (-1 : BitVec 64).toInt = -1 by decide]
    omega
  case isFalse =>
    rw [show (0 : BitVec 64).toInt = 0 by decide]
    omega

/-- `cqo` and `idiv`: the signed quotient and remainder, unless they overflow. -/
theorem run_cqo_idiv (hr : r ≠ .rax ∧ r ≠ .rdx) (hb : s.reg r ≠ 0) (ho : s.reg .rax ≠ .intMin 64 ∨ s.reg r ≠ -1) :
    ∃ t, run [.cqo, .idivReg r] s = some t ∧ Frame s t ∧
      t.reg .rax = (s.reg .rax).sdiv (s.reg r) ∧ t.reg .rdx = (s.reg .rax).srem (s.reg r) := by
  generalize ha : s.reg .rax = a at ho
  generalize hd : s.reg r = d at hb ho
  have hq : (a.sdiv d).toInt = a.toInt.tdiv d.toInt := BitVec.toInt_sdiv_of_ne_or_ne a d ho
  have hm : (a.srem d).toInt = a.toInt.tmod d.toInt := BitVec.toInt_srem a d
  have hd0 : d.toInt ≠ 0 := fun h => hb (BitVec.toInt_inj.mp (h.trans (by decide)))
  have hlt : (a.sdiv d).toInt < 2 ^ 63 := BitVec.toInt_lt
  have hle : -2 ^ 63 ≤ (a.sdiv d).toInt := BitVec.le_toInt _
  have hstep : run [.cqo, .idivReg r] s = some (((s.setReg .rdx (if a.msb then -1 else 0)).setAlu .rax
      (a.sdiv d)).setReg .rdx (a.srem d)) := by
    rw [run_cons, step, Option.bind_some, run_cons, step, State.idiv, setReg_reg, setReg_reg, setReg_reg,
      if_pos rfl, if_neg hr.2, if_neg (show Reg.rax ≠ Reg.rdx by decide), ha, hd, toInt_cqo, ← hq, ← hm,
      if_neg (by omega), BitVec.ofInt_toInt, BitVec.ofInt_toInt]
    rfl
  refine ⟨_, hstep, ⟨rfl, rfl, fun _ _ => rfl⟩, ?_, ?_⟩
  · simp
  · simp

/-- Instructions that touch neither the stack nor memory. -/
def Instr.Quiet : Instr → Prop
  | .push _ | .pop _ => False
  | _ => True

theorem frame_step (h : step s i = some s') (hq : i.Quiet) : Frame s s' := by
  cases i <;> simp only [step, Option.some.injEq, Option.map_eq_some_iff, State.idiv,
    Option.ite_none_left_eq_some, reduceCtorEq] at h
  case push | pop => exact hq.elim
  case setccR8 | cmovcc =>
    obtain ⟨f, -, rfl⟩ := h
    exact ⟨rfl, rfl, fun _ _ => rfl⟩
  case idivReg =>
    obtain ⟨-, rfl⟩ := h
    exact ⟨rfl, rfl, fun _ _ => rfl⟩
  all_goals
    subst h
    exact ⟨rfl, rfl, fun _ _ => rfl⟩

theorem frame_run : ∀ {c : List Instr} {s : State}, run c s = some s' → (∀ i ∈ c, i.Quiet) → Frame s s'
  | [], s, h, _ => by
    cases h
    exact .refl _
  | i :: c, s, h, hq => by
    obtain ⟨t, ht, h⟩ := Option.bind_eq_some_iff.1 h
    exact (frame_step ht (hq i List.mem_cons_self)).trans
      (frame_run h fun j hj => hq j (List.mem_cons_of_mem _ hj))

/-- Code around a pop that undoes the push before it. -/
theorem frame_pop {v : BitVec 64} (c c' : List Instr) (hc : ∀ i ∈ c, i.Quiet) (hc' : ∀ i ∈ c', i.Quiet)
    (h : Frame (s.pushed v) t) (hr : run (c ++ .pop d :: c') t = some s') : Frame s s' := by
  obtain ⟨t1, h1, h2⟩ := run_append_inv hr
  obtain ⟨hp, hf⟩ := step_pop (h.trans (frame_run h1 hc)) d
  rw [run_cons, hp, Option.bind_some] at h2
  exact hf.trans (frame_run h2 hc')

end X86
