import WuBuOS.Jit.CodeGen
import WuBuOS.Jit.EncoderMeaning

/-!
# The x86-64 back end

`jit/jit_codegen_x86.c`, over the encoder of `jit/wubu_x86.c`.  The instructions have two addresses, a division has
fixed registers, and a condition is set in `al`.

* `x86_moved_iff`: a difference or a product is lost if its second operand is overwritten by the first.
* `x86_div`: no division is done; `x86_shift_iff`: a shift is right in place.
* `x86_cmp_iff`: a comparison is right for `CG_REG_0`, which is `rax`.
* `x86_lawful_iff` puts the calls together.
-/

namespace WuBuOS.CodeGen

open Jit
open Function (update)

variable {op : BinOp} {f : BitVec 64 → BitVec 64 → BitVec 64}

/-! ## Registers and conditions -/

def x86Map : List Wx86Reg :=
  [.rax, .rdi, .rsi, .rdx, .rcx, .r8, .r9, .r10, .r11, .r12, .r13, .r14, .r15, .rbx, .rbp, .rsp]

def cgToX86 (r : CGReg) : Wx86Reg :=
  if r < 16 then x86Map.getD r .rax
  else if r = cgRegSp then .rsp
  else if r = cgRegFp then .rbp
  else if r = cgRegXzr then .rax
  else .rax

def cgToX86cc : CGCC → Wx86CC
  | .eq => .e | .ne => .ne | .cs => .b | .cc => .ae | .mi => .s | .pl => .ns | .vs => .o | .vc => .no
  | .hi => .a | .ls => .be | .ge => .ge | .lt => .l | .gt => .g | .le => .le | .al => .o

/-! ## The table -/

/-- An operation whose operands may change places. -/
def x86Either (op : Wx86Reg → Wx86Reg → List UInt8) (rd rn rm : CGReg) : List UInt8 :=
  let dr := cgToX86 rd
  let sr := cgToX86 rn
  let mr := cgToX86 rm
  if dr = sr then op dr mr
  else if dr = mr then op dr sr
  else wx86MovRegReg dr sr ++ op dr mr

def x86AddReg : CGReg → CGReg → CGReg → List UInt8 := x86Either wx86AddRegReg

def x86SubReg (rd rn rm : CGReg) : List UInt8 :=
  let dr := cgToX86 rd
  let sr := cgToX86 rn
  let mr := cgToX86 rm
  if dr = sr then wx86SubRegReg dr mr else wx86MovRegReg dr sr ++ wx86SubRegReg dr mr

def x86MulReg (rd rn rm : CGReg) : List UInt8 :=
  let dr := cgToX86 rd
  let sr := cgToX86 rn
  let mr := cgToX86 rm
  (if dr ≠ sr then wx86MovRegReg dr sr else []) ++ wx86ImulRegReg dr mr

/-- `rd` and `rn` are ignored. -/
def x86DivReg (_rd _rn rm : CGReg) : List UInt8 := wx86Cqo ++ wx86IdivReg (cgToX86 rm)

/-- `rn` is ignored. -/
def x86ModReg (rd _rn rm : CGReg) : List UInt8 :=
  wx86Cqo ++ wx86IdivReg (cgToX86 rm) ++ if rd ≠ 3 then wx86MovRegReg (cgToX86 rd) .rdx else []

def x86AndReg : CGReg → CGReg → CGReg → List UInt8 := x86Either wx86AndRegReg

def x86OrrReg : CGReg → CGReg → CGReg → List UInt8 := x86Either wx86OrRegReg

def x86EorReg : CGReg → CGReg → CGReg → List UInt8 := x86Either wx86XorRegReg

/-- `rn` is ignored, in all three shifts. -/
def x86LslImm (rd _rn : CGReg) (shift : UInt8) : List UInt8 := wx86ShlRegImm8 (cgToX86 rd) shift

def x86LsrImm (rd _rn : CGReg) (shift : UInt8) : List UInt8 := wx86ShrRegImm8 (cgToX86 rd) shift

def x86AsrImm (rd _rn : CGReg) (shift : UInt8) : List UInt8 := wx86SarRegImm8 (cgToX86 rd) shift

def x86MovReg (rd rn : CGReg) : List UInt8 := wx86MovRegReg (cgToX86 rd) (cgToX86 rn)

def x86CmpReg (rn rm : CGReg) : List UInt8 := wx86CmpRegReg (cgToX86 rn) (cgToX86 rm)

/-- The bytes of the `movzx`. -/
def x86Movzx (dr : Wx86Reg) : List UInt8 :=
  (if 8 ≤ dr.num then [0x41] else []) ++ [0x0F, 0xB6, (0xC0 : UInt8) ||| ((dr.lo &&& (7 : UInt8)) <<< (3 : UInt8)) ||| (dr.lo &&& (7 : UInt8))]

def x86Cset (rd : CGReg) (cond : CGCC) : List UInt8 :=
  let dr := cgToX86 rd
  wx86SetccR8 (cgToX86cc cond) dr ++ x86Movzx dr

def x86CmpRegCc (rn rm : CGReg) (cond : CGCC) : List UInt8 := x86CmpReg rn rm ++ x86Cset rn cond

def x86Vtable : CodeGenVTable where
  addReg := x86AddReg
  subReg := x86SubReg
  mulReg := x86MulReg
  divReg := x86DivReg
  modReg := x86ModReg
  andReg := x86AndReg
  orrReg := x86OrrReg
  eorReg := x86EorReg
  lslImm := x86LslImm
  lsrImm := x86LsrImm
  asrImm := x86AsrImm
  movReg := x86MovReg
  cmpRegCc := x86CmpRegCc

/-- Where a neutral register is. -/
def x86Reg (r : Operand) : Amd64.Reg := (cgToX86 r.cg).toAmd64

def x86Target : Target where
  State := Amd64.State
  vt := x86Vtable
  exec := Amd64.exec
  reg s r := s.reg (x86Reg r)
  sp s := s.reg 4

/-! ## The law -/

section

variable {s t : Amd64.State}

theorem x86Reg_inj : Function.Injective x86Reg := by
  intro r r'
  revert r r'
  decide

theorem x86Reg_ne (r : Operand) : x86Reg r ≠ 4 := by
  revert r
  decide

theorem cgToX86_inj {r r' : Operand} : cgToX86 r.cg = cgToX86 r'.cg ↔ r = r' := by
  refine ⟨fun h => x86Reg_inj (congrArg Wx86Reg.toAmd64 h), fun h => by rw [h]⟩

/-- An execution that changes one register. -/
theorem x86_lands {rd : Operand} {v : BitVec 64} {o : Option Amd64.State} (ho : o = some t)
    (h : ∀ x, t.reg x = if x = x86Reg rd then v else s.reg x) : x86Target.Lands s rd v o := by
  refine ⟨t, ho, (h 4).trans (if_neg (x86Reg_ne rd).symm), funext fun r => (h (x86Reg r)).trans ?_⟩
  rw [Function.update_apply]
  exact if_congr x86Reg_inj.eq_iff rfl rfl

/-- The registers have any contents. -/
theorem x86_contents (v : Operand → BitVec 64) : ∃ s, x86Target.reg s = v :=
  ⟨(⟨Function.extend x86Reg v fun _ => 0, fun _ => 0, none⟩ : Amd64.State),
    funext fun r => x86Reg_inj.extend_apply v (fun _ => 0) r⟩

theorem x86_mov (rd rn : Operand) : x86Target.Lawful (.mov rd rn) := fun (s : Amd64.State) _ => by
  have henc : Amd64.Encodes (x86MovReg rd.cg rn.cg) [.alu .mov (x86Reg rd) (x86Reg rn)] :=
    encodes_emitRexModrm rfl (by decide) (by decide) _ _
  have hrun : Amd64.exec (x86MovReg rd.cg rn.cg) s = some (s.setReg (x86Reg rd) (s.reg (x86Reg rn))) := henc.exec s
  exact x86_lands hrun fun _ => rfl

/-! ## Two addresses -/

/-- An instruction with two addresses, behind a move of the first operand. -/
theorem x86_lands_moved {op : List UInt8} {i : Amd64.Instr} {rd rm : Operand}
    (rn : Operand) (henc : Amd64.Encodes op [i])
    (hi : ∀ u, Amd64.step u i = some (u.setAlu (x86Reg rd) (f (u.reg (x86Reg rd)) (u.reg (x86Reg rm)))))
    (s : Amd64.State) :
    x86Target.Lands s rd
      (f (x86Target.reg s rn) (update (x86Target.reg s) rd (x86Target.reg s rn) rm))
      (Amd64.exec (if cgToX86 rd.cg = cgToX86 rn.cg then op else wx86MovRegReg (cgToX86 rd.cg) (cgToX86 rn.cg) ++ op) s) := by
  by_cases hd : rd = rn
  · obtain rfl := hd
    rw [if_pos rfl, Function.update_eq_self]
    exact x86_lands ((henc.exec_one s).trans (hi s)) fun _ => rfl
  · have hmov : Amd64.Encodes (wx86MovRegReg (cgToX86 rd.cg) (cgToX86 rn.cg)) [.alu .mov (x86Reg rd) (x86Reg rn)] :=
      encodes_emitRexModrm rfl (by decide) (by decide) _ _
    rw [if_neg (mt cgToX86_inj.1 hd)]
    have hrun : Amd64.exec (wx86MovRegReg (cgToX86 rd.cg) (cgToX86 rn.cg) ++ op) s =
        Amd64.exec op (s.setReg (x86Reg rd) (s.reg (x86Reg rn))) := by
      refine (hmov.exec_append henc s).trans ?_
      rw [hmov.exec_one]
      rfl
    refine x86_lands (hrun.trans ((henc.exec_one _).trans (hi _))) fun x => ?_
    have hm : x86Reg rm = x86Reg rd ↔ rm = rd := x86Reg_inj.eq_iff
    by_cases hx : x = x86Reg rd
    · simp [hx, hm, x86Target, Function.update_apply]
    · simp [hx]

/-- An operation whose operands may change places. -/
theorem x86_either {op : Wx86Reg → Wx86Reg → List UInt8} {o : Amd64.Alu}
    (henc : ∀ d r : Wx86Reg, Amd64.Encodes (op d r) [.alu o d.toAmd64 r.toAmd64])
    (hi : ∀ (u : Amd64.State) d r, u.alu d r o = u.setAlu d (f (u.reg d) (u.reg r))) (hf : ∀ a b, f a b = f b a)
    (rd rn rm : Operand) (s : Amd64.State) :
    x86Target.Lands s rd (f (x86Target.reg s rn) (x86Target.reg s rm)) (Amd64.exec (x86Either op rd.cg rn.cg rm.cg) s) := by
  have hmoved := fun rm => x86_lands_moved rn (henc (cgToX86 rd.cg) (cgToX86 (Operand.cg rm)))
    (fun u => congrArg some (hi u _ _)) s
  by_cases hn : rd = rn
  · have h := hmoved rm
    obtain rfl := hn
    rw [Function.update_eq_self, if_pos rfl] at h
    rwa [x86Either, if_pos rfl]
  · rw [x86Either, if_neg (mt cgToX86_inj.1 hn)]
    by_cases hm : rd = rm
    · obtain rfl := hm
      rw [if_pos rfl, hf]
      exact x86_lands ((henc _ _).exec_one s |>.trans (congrArg some (hi s _ _))) fun _ => rfl
    · have h := hmoved rm
      rw [Function.update_of_ne (Ne.symm hm), if_neg (mt cgToX86_inj.1 hn)] at h
      rwa [if_neg (mt cgToX86_inj.1 hm)]

/-- The operations on two registers that the back end does. -/
theorem x86_bin (h : op = .add ∨ op = .and ∨ op = .orr ∨ op = .eor) (rd rn rm : Operand) :
    x86Target.Lawful (.bin op rd rn rm) := by
  intro s _
  obtain rfl | rfl | rfl | rfl := h
  · exact x86_either (encodes_emitRexModrm rfl (by decide) (by decide)) (fun _ _ _ => rfl) BitVec.add_comm rd rn rm s
  · exact x86_either (encodes_emitRexModrm rfl (by decide) (by decide)) (fun _ _ _ => rfl) BitVec.and_comm rd rn rm s
  · exact x86_either (encodes_emitRexModrm rfl (by decide) (by decide)) (fun _ _ _ => rfl) BitVec.or_comm rd rn rm s
  · exact x86_either (encodes_emitRexModrm rfl (by decide) (by decide)) (fun _ _ _ => rfl) BitVec.xor_comm rd rn rm s

/-- A difference or a product: the second operand is read when the first one is already there. -/
theorem x86_moved_leaves (h : op = .sub ∨ op = .mul) (rd rn rm : Operand) : x86Target.Leaves (.bin op rd rn rm) fun v =>
      update v rd (op.apply (v rn) (update v rd (v rn) rm)) := by
  intro s
  obtain rfl | rfl := h
  · exact x86_lands_moved rn (f := fun a b => a - b) (encodes_emitRexModrm rfl (by decide) (by decide) _ _) (fun _ => rfl) s
  · have hcode : x86MulReg rd.cg rn.cg rm.cg = if cgToX86 rd.cg = cgToX86 rn.cg
        then wx86ImulRegReg (cgToX86 rd.cg) (cgToX86 rm.cg)
        else wx86MovRegReg (cgToX86 rd.cg) (cgToX86 rn.cg) ++ wx86ImulRegReg (cgToX86 rd.cg) (cgToX86 rm.cg) := by
      unfold x86MulReg
      by_cases h : cgToX86 rd.cg = cgToX86 rn.cg <;> simp [h]
    have hlands := x86_lands_moved rn (f := fun a b => a * b) (encodes_imulRegReg (cgToX86 rd.cg) (cgToX86 rm.cg))
      (fun _ => rfl) s
    rwa [← hcode] at hlands

theorem x86_moved_iff (h : op = .sub ∨ op = .mul) (rd rn rm : Operand) :
    x86Target.Lawful (.bin op rd rn rm) ↔ (rd = rm → rd = rn) := by
  refine (x86_moved_leaves h rd rn rm).lawful_iff.trans ⟨fun hall => ?_, fun hrd s _ => ?_⟩
  · rintro rfl
    by_contra hne
    obtain ⟨s, hs⟩ := x86_contents fun r => if r = rn then 1 else 0
    have hrun := congrFun (hall s (by obtain rfl | rfl := h <;> trivial)) rd
    rw [hs] at hrun
    obtain rfl | rfl := h <;> simp [Call.dst, Call.result, hne, BinOp.apply] at hrun
  · by_cases hm : rd = rm
    · obtain rfl := hm
      obtain rfl := hrd rfl
      rw [Function.update_eq_self]
      rfl
    · rw [Function.update_of_ne (Ne.symm hm)]
      rfl

/-! ## Shifts -/

theorem x86_shift_leaves (op : ShiftOp) (rd rn : Operand) (n : Fin 64) :
    x86Target.Leaves (.shift op rd rn n) fun v => update v rd (op.apply (v rd) n) := by
  intro (s : Amd64.State)
  have hn : (UInt8.ofNat n).toNat % 64 = n := by
    rw [UInt8.toNat_ofNat']
    omega
  have hlands {o : Amd64.Shift} {b : List UInt8} (henc : Amd64.Encodes b [.shift o (x86Reg rd) (.ofNat n)])
      (ho : ∀ a, o.apply a n = op.apply a n) :
      x86Target.Lands s rd (op.apply (x86Target.reg s rd) n) (Amd64.exec b s) := by
    refine x86_lands (henc.exec_one s) fun x => ?_
    rw [Amd64.setAlu_reg, hn]
    exact if_congr Iff.rfl (ho _) rfl
  cases op with
  | lsl => exact hlands (encodes_shift (show Amd64.shiftOf Wx86Reg.rsp.lo = some .shl from rfl) _ _) fun _ => rfl
  | lsr => exact hlands (encodes_shift (show Amd64.shiftOf Wx86Reg.rbp.lo = some .shr from rfl) _ _) fun _ => rfl
  | asr => exact hlands (encodes_shift (show Amd64.shiftOf Wx86Reg.rdi.lo = some .sar from rfl) _ _) fun _ => rfl

/-- A shift of ones is not a shift of zeros. -/
theorem apply_ones_ne (op : ShiftOp) (n : Fin 64) : op.apply (-1) n ≠ op.apply 0 n := by
  revert n
  cases op <;> decide

theorem x86_shift_iff (op : ShiftOp) (rd rn : Operand) (n : Fin 64) :
    x86Target.Lawful (.shift op rd rn n) ↔ rd = rn := by
  refine (x86_shift_leaves op rd rn n).lawful_iff.trans ⟨fun h => ?_, fun h _ _ => by rw [h]; rfl⟩
  by_contra hne
  obtain ⟨s, hs⟩ := x86_contents fun r => if r = rd then -1 else 0
  have hrun := congrFun (h s trivial) rd
  rw [hs] at hrun
  exact apply_ones_ne op n (by simpa [Call.dst, Call.result, Ne.symm hne] using hrun)

/-! ## Divisions and comparisons

A state in which all registers are 7 tells them all. -/

def x86Sevens : Amd64.State := ⟨fun _ => 7, fun _ => 0, none⟩

/-- A division that ends leaves 1 in `rax` and 0 in `rdx`. -/
theorem x86_divided {rm : Operand} (is : List Amd64.Instr)
    (h : MachineCode.run Amd64.step ([.cqo, .idiv (x86Reg rm)] ++ is) x86Sevens = some t) :
    ∃ u : Amd64.State, (∀ x, u.reg x = if x = 2 then 0 else if x = 0 then 1 else 7) ∧
      MachineCode.run Amd64.step is u = some t := by
  let w : Amd64.State := x86Sevens.setReg 2 0
  obtain ⟨u, hu, ht⟩ : ∃ u, w.idiv (w.reg (x86Reg rm)) = some u ∧ MachineCode.run Amd64.step is u = some t :=
    Option.bind_eq_some_iff.1 h
  refine ⟨u, ?_, ht⟩
  by_cases hr : x86Reg rm = 2
  · rw [hr] at hu
    cases hu
  · have hseven : w.reg (x86Reg rm) = 7 := if_neg hr
    have hdiv : w.idiv 7 = some ((w.setAlu 0 1).setReg 2 0) := by
      rw [Amd64.State.idiv, show w.reg 2 = 0 from rfl, show w.reg 0 = 7 from rfl]
      exact if_neg (by decide)
    rw [hseven, hdiv] at hu
    cases hu
    intro x
    by_cases hx : x = 2
    · simp [hx]
    · simp [hx, w, x86Sevens]

/-- **No division** is done, and no remainder: `rax` and `rdx` do not keep their 7. -/
theorem x86_div (h : op = .div ∨ op = .mod) (rd rn rm : Operand) : ¬x86Target.Lawful (.bin op rd rn rm) := by
  intro hlaw
  have hdef : (7 : BitVec 64) ≠ 0 ∧ ¬((7 : BitVec 64) = BitVec.intMin 64 ∧ (7 : BitVec 64) = -1) := by decide
  have henc := encodes_cqo.append (encodes_idivReg (cgToX86 rm.cg))
  obtain rfl | rfl := h
  · obtain ⟨t, ht, -, hreg⟩ := hlaw x86Sevens hdef
    obtain ⟨u, hu, hut⟩ := x86_divided [] ((henc.exec x86Sevens).symm.trans ht)
    obtain rfl : u = t := Option.some.inj hut
    have hrdx : (0 : BitVec 64) = update (fun _ : Operand => (7 : BitVec 64)) rd (BitVec.sdiv 7 7) 3 :=
      (hu 2).symm.trans (congrFun hreg 3)
    rw [Function.update_apply] at hrdx
    split at hrdx <;> exact absurd hrdx (by decide)
  · obtain ⟨t, ht, -, hreg⟩ := hlaw x86Sevens hdef
    by_cases hrd : rd = 3
    · obtain rfl := hrd
      obtain ⟨u, hu, hut⟩ := x86_divided [] (((henc.append .nil).exec x86Sevens).symm.trans ht)
      obtain rfl : u = t := Option.some.inj hut
      have hrax : (1 : BitVec 64) = 7 := (hu 0).symm.trans (congrFun hreg 0)
      exact absurd hrax (by decide)
    · have hcode : x86ModReg rd.cg rn.cg rm.cg =
          wx86Cqo ++ wx86IdivReg (cgToX86 rm.cg) ++ wx86MovRegReg (cgToX86 rd.cg) .rdx := by
        have hcg : rd.cg ≠ 3 := fun he => hrd (Fin.ext (show rd.val = 3 from congrArg (fun r : CGReg => r.val) he))
        rw [x86ModReg, if_pos hcg]
      have hmov : Amd64.Encodes (wx86MovRegReg (cgToX86 rd.cg) .rdx) [.alu .mov (x86Reg rd) 2] :=
        encodes_emitRexModrm rfl (by decide) (by decide) _ _
      obtain ⟨u, hu, hut⟩ := x86_divided [.alu .mov (x86Reg rd) 2]
        (((henc.append hmov).exec x86Sevens).symm.trans ((congrArg (Amd64.exec · x86Sevens) hcode).symm.trans ht))
      obtain rfl : u.setReg (x86Reg rd) (u.reg 2) = t := Option.some.inj hut
      have hrdx : (if 2 = x86Reg rd then u.reg 2 else u.reg 2) = 7 :=
        (congrFun hreg 3).trans (Function.update_of_ne (Ne.symm hrd) ..)
      rw [ite_self, hu] at hrdx
      exact absurd hrdx (by decide)

/-- The `movzx` writes some register. -/
theorem encodes_x86Movzx (dr : Wx86Reg) : ∃ d b, Amd64.Encodes (x86Movzx dr) [.movzx d b] ∧ (dr = .rax → d = 0 ∧ b = .low 0) := by
  refine ⟨Amd64.regOf false dr.lo, Amd64.byteRegOf (if 8 ≤ dr.num then some ⟨false, false, true⟩ else none) dr.hi dr.lo,
    .one ?_ fun rest => ?_, ?_⟩
  · cases dr <;> exact List.cons_ne_nil _ _
  · cases dr <;> rfl
  · rintro rfl
    exact ⟨rfl, rfl⟩

/-- The condition of the machine. -/
def Cond.x86 : Cond → X86.Cc
  | .eq => .e | .ne => .ne | .lt => .l | .ge => .ge | .gt => .g | .le => .le

theorem Cond.holds_x86 (cond : Cond) (a b : BitVec 64) : cond.x86.holds (X86.cmpFlags a b) = cond.rel a b := by
  rw [X86.Cc.holds_cmpFlags]
  cases cond <;> rfl

/-- The truth value is in `al`. -/
def x86Compared (s : Amd64.State) (cond : Cond) (rn rm : Operand) : Amd64.State :=
  ({ s with flags := some (X86.cmpFlags (s.reg (x86Reg rn)) (s.reg (x86Reg rm))) } : Amd64.State).setByte (.low 0)
    (if cond.rel (x86Target.reg s rn) (x86Target.reg s rm) then 1 else 0)

/-- A byte with a truth value. -/
theorem byte_truth (a : BitVec 64) (b : Bool) :
    ((a &&& ~~~0xFF#64 ||| (if b then 1 else 0 : BitVec 8).setWidth 64).extractLsb' 0 8).setWidth 64 = truth b := by
  have hlow (v : BitVec 64) : v.extractLsb' 0 8 = v.setWidth 8 := BitVec.eq_of_toNat_eq (by
    rw [BitVec.extractLsb'_toNat, BitVec.toNat_setWidth, Nat.shiftRight_zero])
  rw [hlow, BitVec.setWidth_or, BitVec.setWidth_and, show (~~~0xFF#64).setWidth 8 = 0 by decide]
  cases b <;> simp [truth]

/-- **A comparison** sets `al`, and then some register; for `CG_REG_0`, it is `rax`, to the truth value. -/
theorem x86_cmp_run (cond : Cond) (rn rm : Operand) (s : Amd64.State) : ∃ d v,
    x86Target.exec ((Call.cmp cond rn rm).code x86Vtable) s = some ((x86Compared s cond rn rm).setReg d v) ∧
    (rn = 0 → d = 0 ∧ v = truth (cond.rel (x86Target.reg s rn) (x86Target.reg s rm))) := by
  obtain ⟨d, b, hmovzx, hrax⟩ := encodes_x86Movzx (cgToX86 rn.cg)
  have hcmp : Amd64.Encodes (x86CmpReg rn.cg rm.cg) [.alu .cmp (x86Reg rn) (x86Reg rm)] :=
    encodes_emitRexModrm rfl (by decide) (by decide) _ _
  have hk : Amd64.ccOf (cgToX86cc cond.cc).num = some cond.x86 := by cases cond <;> rfl
  have henc := hcmp.append ((encodes_setccR8 hk (cgToX86 rn.cg)).append hmovzx)
  refine ⟨d, ((x86Compared s cond rn rm).getByte b).setWidth 64, (henc.exec s).trans ?_, fun hn => ?_⟩
  · rw [x86Compared, show x86Target.reg s rn = s.reg (x86Reg rn) from rfl,
      show x86Target.reg s rm = s.reg (x86Reg rm) from rfl, ← Cond.holds_x86]
    rfl
  · obtain ⟨hd, rfl⟩ := hrax (by rw [hn]; rfl)
    exact ⟨hd, byte_truth (s.reg 0) _⟩

/-- Between sevens. -/
theorem x86Compared_sevens (cond : Cond) (rn rm : Operand) (x : Amd64.Reg) :
    (x86Compared x86Sevens cond rn rm).reg x = if x = 0 then truth (cond.rel 7 7) else 7 := by
  refine if_congr Iff.rfl ?_ rfl
  show (7 &&& ~~~0xFF#64 ||| (if cond.rel 7 7 then 1 else 0 : BitVec 8).setWidth 64) = truth (cond.rel 7 7)
  generalize cond.rel 7 7 = b
  cases b <;> decide

/-- Comparisons that the back end can make: those whose first operand is `CG_REG_0`.  Else `al` is lost, or the
register is not set. -/
theorem x86_cmp_iff (cond : Cond) (rn rm : Operand) : x86Target.Lawful (.cmp cond rn rm) ↔ rn = 0 := by
  have htruth : ∀ b, truth b ≠ 7 := by decide
  constructor
  · intro h
    by_contra hn
    obtain ⟨d, v, hrun, -⟩ := x86_cmp_run cond rn rm x86Sevens
    obtain ⟨t, ht, -, hreg⟩ := h x86Sevens trivial
    cases hrun.symm.trans ht
    have hseen : ∀ r, (if x86Reg r = d then v else if x86Reg r = 0 then truth (cond.rel 7 7) else 7) =
        if r = rn then truth (cond.rel 7 7) else 7 := fun r => by
      have hr := congrFun hreg r
      rw [Function.update_apply] at hr
      rw [← x86Compared_sevens cond rn rm]
      exact hr
    have hrax : x86Reg rn ≠ 0 := fun he => hn (x86Reg_inj he)
    by_cases hd : d = 0
    · have hrn := hseen rn
      rw [hd, if_neg hrax, if_neg hrax, if_pos rfl] at hrn
      exact htruth _ hrn.symm
    · have hal := hseen 0
      rw [show x86Reg 0 = 0 from rfl, if_neg (Ne.symm hd), if_pos rfl, if_neg (Ne.symm hn)] at hal
      exact htruth _ hal
  · rintro rfl (s : Amd64.State) -
    obtain ⟨d, v, hrun, hdv⟩ := x86_cmp_run cond 0 rm s
    obtain ⟨rfl, rfl⟩ := hdv rfl
    refine x86_lands hrun fun x => ?_
    show (if x = 0 then _ else if x = 0 then _ else s.reg x) = if x = 0 then _ else s.reg x
    by_cases hx : x = 0
    · rw [if_pos hx, if_pos hx]
      rfl
    · rw [if_neg hx, if_neg hx, if_neg hx]

/-! ## All calls -/

/-- When the code of a call does what the call says. -/
def X86Fits : Call → Prop
  | .bin .div _ _ _ | .bin .mod _ _ _ => False
  | .bin .sub rd rn rm | .bin .mul rd rn rm => rd = rm → rd = rn
  | .shift _ rd rn _ => rd = rn
  | .cmp _ rn _ => rn = 0
  | _ => True

theorem x86_lawful_iff (c : Call) : x86Target.Lawful c ↔ X86Fits c := by
  cases c with
  | bin op rd rn rm =>
    cases op with
    | add => exact iff_of_true (x86_bin (.inl rfl) rd rn rm) trivial
    | and => exact iff_of_true (x86_bin (.inr (.inl rfl)) rd rn rm) trivial
    | orr => exact iff_of_true (x86_bin (.inr (.inr (.inl rfl))) rd rn rm) trivial
    | eor => exact iff_of_true (x86_bin (.inr (.inr (.inr rfl))) rd rn rm) trivial
    | sub => exact x86_moved_iff (.inl rfl) rd rn rm
    | mul => exact x86_moved_iff (.inr rfl) rd rn rm
    | div => exact iff_of_false (x86_div (.inl rfl) rd rn rm) id
    | mod => exact iff_of_false (x86_div (.inr rfl) rd rn rm) id
  | shift op rd rn n => exact x86_shift_iff op rd rn n
  | mov rd rn => exact iff_of_true (x86_mov rd rn) trivial
  | cmp cond rn rm => exact x86_cmp_iff cond rn rm

end

end WuBuOS.CodeGen
