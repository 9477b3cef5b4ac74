import WuBuOS.Lib.BitMoves

/-!
# Shifts and rotates of the 8086 shim

`runtime/wubu_dos_emu_alu.c`: the instructions ROL, ROR, RCL, RCR, SHL, SHR and SAR are carried out one bit at a time,
and then `logic8` or `logic16` sets the flags as after a logical operation.  The value is what the instruction says
(`doShift_spec`), and so is the carry at the end of the loop (`rounds_spec`), but the flags that are set afterwards
are not: `shift_flags_iff` says when they are nonetheless.

The two widths are one function, with the width as a parameter.  Of the emulator the functions use the flags.
-/

namespace WuBuOS.Dos

open BitMoves

/-! ## Flags -/

/-- `flags` of `WubuDosEmu`. -/
abbrev Flags := BitVec 16

def fCf : Flags := 0x0001

def fPf : Flags := 0x0004

def fAf : Flags := 0x0010

def fZf : Flags := 0x0040

def fSf : Flags := 0x0080

def fOf : Flags := 0x0800

def getF (flags b : Flags) : Bool := flags &&& b ≠ 0

def setF (flags b : Flags) (v : Bool) : Flags := if v then flags ||| b else flags &&& ~~~b

/-- Whether the number of ones is even. -/
def parity8 (v : BitVec 8) : Bool :=
  (List.range 8).foldl (fun c i => c ^^ (v >>> i).getLsbD 0) false = false

/-- `logic8` and `logic16`; the parity is that of the low byte. -/
def logic {w : Nat} (flags : Flags) (v : BitVec w) : Flags :=
  let flags := setF (setF (setF flags fCf false) fOf false) fAf false
  setF (setF (setF flags fZf (v = 0)) fSf v.msb) fPf (parity8 (v.setWidth 8))

/-! ## The loop -/

/-- One round of the loop of `do_shift8` and `do_shift16`. -/
def shiftRound {w : Nat} (op : Nat) (s : BitVec w × Flags) : BitVec w × Flags :=
  let (res, flags) := s
  let oldcf := getF flags fCf
  let msb := res.msb
  let bit0 := res.getLsbD 0
  match op with
  | 0 => (res <<< 1 ||| lowBit w msb, setF flags fCf msb)
  | 1 => (res >>> 1 ||| lowBit w bit0 <<< (w - 1), setF flags fCf bit0)
  | 2 => (res <<< 1 ||| lowBit w oldcf, setF (setF flags fCf msb) fOf (msb != oldcf))
  | 3 => (res >>> 1 ||| lowBit w oldcf <<< (w - 1), setF (setF flags fCf bit0) fOf (bit0 != oldcf))
  | 4 | 6 => (res <<< 1, setF (setF flags fCf msb) fOf false)
  | 5 => (res >>> 1, setF flags fCf bit0)
  | _ => (res >>> 1 ||| (res &&& lowBit w true <<< (w - 1)), setF flags fCf bit0)

/-- `do_shift8` and `do_shift16`. -/
def doShift {w : Nat} (flags : Flags) (op : Nat) (v : BitVec w) (cnt : Nat) : BitVec w × Flags :=
  let cnt := cnt &&& 31
  if cnt = 0 then (v, flags)
  else
    let s := (shiftRound op)^[cnt] (v, flags)
    (s.1, logic s.2 s.1)

def doShift8 : Flags → Nat → BitVec 8 → Nat → BitVec 8 × Flags := doShift

def doShift16 : Flags → Nat → BitVec 16 → Nat → BitVec 16 × Flags := doShift

/-! ## The instructions -/

inductive ShiftOp where
  | rol | ror | rcl | rcr | shl | shr | sar
  deriving DecidableEq

/-- The number in the instruction.  SHL has another one, 6. -/
def ShiftOp.num : ShiftOp → Nat
  | .rol => 0 | .ror => 1 | .rcl => 2 | .rcr => 3 | .shl => 4 | .shr => 5 | .sar => 7

def ShiftOp.rotates : ShiftOp → Bool
  | .rol | .ror | .rcl | .rcr => true
  | .shl | .shr | .sar => false

variable {w : Nat}

/-- What the operand becomes; a rotation through the carry is one of a word with the carry in front. -/
def ShiftOp.result (v : BitVec w) (cf : Bool) (n : Nat) : ShiftOp → BitVec w
  | .rol => v.rotateLeft n
  | .ror => v.rotateRight n
  | .rcl => ((BitVec.cons cf v).rotateLeft n).setWidth w
  | .rcr => ((BitVec.cons cf v).rotateRight n).setWidth w
  | .shl => v <<< n
  | .shr => v >>> n
  | .sar => v.sshiftRight n

/-- The last bit that is moved out of the operand. -/
def ShiftOp.lastOut (v : BitVec w) (cf : Bool) (n : Nat) : ShiftOp → Bool
  | .rol => (v.rotateLeft n).getLsbD 0
  | .ror => (v.rotateRight n).msb
  | .rcl => ((BitVec.cons cf v).rotateLeft n).msb
  | .rcr => ((BitVec.cons cf v).rotateRight n).msb
  | .shl => v.getMsbD (n - 1)
  | .shr => v.getLsbD (n - 1)
  | .sar => (v.sshiftRight (n - 1)).getLsbD 0

/-- Whether the low byte has an even number of ones. -/
def evenOnes (v : BitVec w) : Bool := ((List.range 8).countP fun i => (v.setWidth 8).getLsbD i) % 2 = 0

/-- SF, ZF and PF say what is true of the result. -/
def Describes (flags : Flags) (v : BitVec w) : Prop :=
  getF flags fSf = v.msb ∧ getF flags fZf = (v == 0) ∧ getF flags fPf = evenOnes v

/-- **What the instruction does**: the result, the bit moved out last in the carry, and SF, ZF and PF from the result
of a shift or as they were. -/
structure ShiftOp.Performed (op : ShiftOp) (v : BitVec w) (n : Nat) (flags : Flags) (out : BitVec w × Flags) : Prop where
  result : out.1 = op.result v (getF flags fCf) n
  carry : getF out.2 fCf = op.lastOut v (getF flags fCf) n
  shifted : op.rotates = false → Describes out.2 out.1
  rotated : op.rotates = true → ∀ b ∈ [fSf, fZf, fPf], getF out.2 b = getF flags b

/-! ## Flags, one at a time -/

variable {flags b b' : Flags} {v : BitVec w}

theorem getF_setF_self (hb : b ≠ 0) (x : Bool) : getF (setF flags b x) b = x := by
  cases x with
  | true =>
    have h : (flags ||| b) &&& b = b := by
      refine BitVec.eq_of_getLsbD_eq fun i _ => ?_
      rw [BitVec.getLsbD_and, BitVec.getLsbD_or]
      cases flags.getLsbD i <;> cases b.getLsbD i <;> rfl
    simpa [getF, setF, h] using hb
  | false =>
    have h : flags &&& ~~~b &&& b = 0 := by
      refine BitVec.eq_of_getLsbD_eq fun i hi => ?_
      rw [BitVec.getLsbD_and, BitVec.getLsbD_and, BitVec.getLsbD_not]
      cases flags.getLsbD i <;> cases b.getLsbD i <;> simp
    simp [getF, setF, h]

/-- A flag set leaves the others. -/
theorem getF_setF_of_and (h : b &&& b' = 0) (x : Bool) : getF (setF flags b x) b' = getF flags b' := by
  have hbit : ∀ i, (b.getLsbD i && b'.getLsbD i) = false := fun i => by
    rw [← BitVec.getLsbD_and, h]
    exact BitVec.getLsbD_zero
  have heq : setF flags b x &&& b' = flags &&& b' := by
    refine BitVec.eq_of_getLsbD_eq fun i hi => ?_
    cases x <;> simp [setF] <;> grind
  rw [getF, getF, heq]

theorem foldl_xor (f : Nat → Bool) (l : List Nat) (c : Bool) :
    l.foldl (fun c i => c ^^ f i) c = (c ^^ decide (l.countP f % 2 = 1)) := by
  induction l generalizing c with
  | nil => simp
  | cons i l ih =>
    rw [List.foldl_cons, ih, List.countP_cons]
    cases f i <;> cases c <;> rcases Nat.mod_two_eq_zero_or_one (l.countP f) with h | h <;> grind

/-- **The loop over the bits tells the parity.** -/
theorem parity8_eq (v : BitVec w) : parity8 (v.setWidth 8) = evenOnes v := by
  rw [parity8, foldl_xor fun i => ((v.setWidth 8) >>> i).getLsbD 0]
  have hbits : (fun i => (v.setWidth 8 >>> i).getLsbD 0) = fun i => (v.setWidth 8).getLsbD i := by
    funext i
    rw [BitVec.getLsbD_ushiftRight, Nat.add_zero]
  rw [hbits, evenOnes, Bool.false_xor]
  rcases Nat.mod_two_eq_zero_or_one ((List.range 8).countP fun i => (v.setWidth 8).getLsbD i) with h | h <;>
    rw [h] <;> rfl

theorem getF_logic (flags : Flags) (v : BitVec w) : getF (logic flags v) fCf = false ∧ Describes (logic flags v) v := by
  refine ⟨?_, ?_, ?_, ?_⟩
  · rw [logic]
    simp only [getF_setF_of_and (show fPf &&& fCf = 0 by decide), getF_setF_of_and (show fSf &&& fCf = 0 by decide),
      getF_setF_of_and (show fZf &&& fCf = 0 by decide), getF_setF_of_and (show fAf &&& fCf = 0 by decide),
      getF_setF_of_and (show fOf &&& fCf = 0 by decide), getF_setF_self (show fCf ≠ 0 by decide)]
  · rw [logic]
    simp only [getF_setF_of_and (show fPf &&& fSf = 0 by decide), getF_setF_self (show fSf ≠ 0 by decide)]
  · rw [logic]
    simp only [getF_setF_of_and (show fPf &&& fZf = 0 by decide), getF_setF_of_and (show fSf &&& fZf = 0 by decide),
      getF_setF_self (show fZf ≠ 0 by decide)]
    rfl
  · rw [logic]
    simp only [getF_setF_self (show fPf ≠ 0 by decide), parity8_eq]

/-! ## The rounds -/

/-- The carry after `n` rounds. -/
def ShiftOp.carry (op : ShiftOp) (v : BitVec w) (cf : Bool) (n : Nat) : Bool := if n = 0 then cf else op.lastOut v cf n

/-- One more round, of the operand and of the carry. -/
theorem round_spec (hw : 0 < w) (op : ShiftOp) (v : BitVec w) {cf : Bool} {n : Nat}
    (hcf : getF flags fCf = op.carry v cf n) :
    (shiftRound op.num (op.result v cf n, flags)).1 = op.result v cf (n + 1) ∧
      getF (shiftRound op.num (op.result v cf n, flags)).2 fCf = op.lastOut v cf (n + 1) := by
  have hself : ∀ (f : Flags) x, getF (setF f fCf x) fCf = x := fun _ => getF_setF_self (by decide)
  have hover : ∀ (f : Flags) x, getF (setF f fOf x) fCf = getF f fCf := fun _ => getF_setF_of_and (by decide)
  cases op with
  | rol =>
    refine ⟨(rotateLeft_succ v n).symm, (hself _ _).trans ?_⟩
    rw [ShiftOp.lastOut, rotateLeft_succ, getLsbD_shiftIn hw]
    rfl
  | ror =>
    refine ⟨(rotateRight_succ v n).symm, (hself _ _).trans ?_⟩
    rw [ShiftOp.lastOut, rotateRight_succ, msb_shiftIn hw]
    rfl
  | rcl =>
    have hold : getF flags fCf = ((BitVec.cons cf v).rotateLeft n).msb := by
      rw [hcf, ShiftOp.carry]
      split
      · subst n
        simp
      · rfl
    obtain ⟨hres, hmsb⟩ := cons_rotateLeft_succ hw (BitVec.cons cf v) n
    refine ⟨?_, ((hover _ _).trans (hself _ _)).trans hmsb.symm⟩
    exact Eq.trans (congrArg (fun c => _ ||| lowBit w c) hold) hres.symm
  | rcr =>
    have hold : getF flags fCf = ((BitVec.cons cf v).rotateRight n).msb := by
      rw [hcf, ShiftOp.carry]
      split
      · subst n
        simp
      · rfl
    obtain ⟨hres, hmsb⟩ := cons_rotateRight_succ hw (BitVec.cons cf v) n
    refine ⟨?_, ((hover _ _).trans (hself _ _)).trans hmsb.symm⟩
    exact Eq.trans (congrArg (fun c => _ ||| lowBit w c <<< (w - 1)) hold) hres.symm
  | shl =>
    refine ⟨(BitVec.shiftLeft_add v n 1).symm, ((hover _ _).trans (hself _ _)).trans ?_⟩
    rw [ShiftOp.result, ShiftOp.lastOut, BitVec.msb_eq_getLsbD_last, BitVec.getLsbD_shiftLeft, BitVec.getMsbD_eq_getLsbD]
    grind
  | shr =>
    refine ⟨(BitVec.shiftRight_add v n 1).symm, (hself _ _).trans ?_⟩
    rw [ShiftOp.result, ShiftOp.lastOut, BitVec.getLsbD_ushiftRight, Nat.add_zero, Nat.add_sub_cancel]
  | sar =>
    refine ⟨?_, (hself _ _).trans ?_⟩
    · rw [ShiftOp.result, ShiftOp.result, BitVec.sshiftRight_add]
      generalize v.sshiftRight n = y
      refine BitVec.eq_of_getLsbD_eq fun i hi => ?_
      simp only [shiftRound, ShiftOp.num, BitVec.getLsbD_or, BitVec.getLsbD_and, BitVec.getLsbD_ushiftRight,
        BitVec.getLsbD_shiftLeft, getLsbD_lowBit, BitVec.getLsbD_sshiftRight, BitVec.msb_eq_getLsbD_last]
      grind
    · rw [ShiftOp.result, ShiftOp.lastOut, Nat.add_sub_cancel]

/-- **The loop moves the operand by `cnt` bits**, and leaves the last bit moved out in the carry. -/
theorem rounds_spec (hw : 0 < w) (op : ShiftOp) (v : BitVec w) (flags : Flags) (n : Nat) :
    ((shiftRound op.num)^[n] (v, flags)).1 = op.result v (getF flags fCf) n ∧
      getF ((shiftRound op.num)^[n] (v, flags)).2 fCf = op.carry v (getF flags fCf) n := by
  induction n with
  | zero => cases op <;> simp [ShiftOp.result, ShiftOp.carry]
  | succ n ih =>
    rw [Function.iterate_succ_apply']
    generalize (shiftRound op.num)^[n] (v, flags) = s at ih ⊢
    obtain ⟨res, f⟩ := s
    obtain ⟨rfl, hcf⟩ := ih
    exact round_spec hw op v hcf

/-! ## The instruction as a whole -/

variable {op : ShiftOp} {n : Nat}

/-- What `do_shift8` and `do_shift16` return. -/
theorem doShift_spec (hw : 0 < w) (op : ShiftOp) (v : BitVec w) (flags : Flags) (h : 1 ≤ n ∧ n ≤ 31) :
    (doShift flags op.num v n).1 = op.result v (getF flags fCf) n ∧ getF (doShift flags op.num v n).2 fCf = false ∧
      Describes (doShift flags op.num v n).2 (op.result v (getF flags fCf) n) := by
  have hcnt : n &&& 31 = n := (Nat.and_two_pow_sub_one_eq_mod n 5).trans (Nat.mod_eq_of_lt (by omega))
  have hrun := rounds_spec hw op v flags n
  have hval : doShift flags op.num v n = (op.result v (getF flags fCf) n,
      logic ((shiftRound op.num)^[n] (v, flags)).2 (op.result v (getF flags fCf) n)) := by
    rw [doShift, hcnt, if_neg (by omega), ← hrun.1]
  rw [hval]
  exact ⟨rfl, getF_logic _ _⟩

/-- No bit is lost and, after a rotation, the flags already say what is true of the result. -/
def ShiftOp.Fits (op : ShiftOp) (v : BitVec w) (n : Nat) (flags : Flags) : Prop :=
  op.lastOut v (getF flags fCf) n = false ∧
    (op.rotates = true → Describes flags (op.result v (getF flags fCf) n))

theorem performed_iff (hw : 0 < w) (op : ShiftOp) (v : BitVec w) (flags : Flags) (h : 1 ≤ n ∧ n ≤ 31) :
    op.Performed v n flags (doShift flags op.num v n) ↔ op.Fits v n flags := by
  obtain ⟨hres, hcf, hsf, hzf, hpf⟩ := doShift_spec hw op v flags h
  constructor
  · rintro ⟨-, hcarry, -, hrot⟩
    refine ⟨hcarry.symm.trans hcf, fun hop => ?_⟩
    have hkept := hrot hop
    exact ⟨(hkept fSf (by simp)).symm.trans hsf, (hkept fZf (by simp)).symm.trans hzf,
      (hkept fPf (by simp)).symm.trans hpf⟩
  · rintro ⟨hlast, hrot⟩
    refine ⟨hres, hcf.trans hlast.symm, fun _ => ?_, fun hop b hb => ?_⟩
    · rw [hres]
      exact ⟨hsf, hzf, hpf⟩
    · obtain ⟨hs, hz, hp⟩ := hrot hop
      rcases List.mem_cons.1 hb with rfl | hb
      · exact hsf.trans hs.symm
      rcases List.mem_cons.1 hb with rfl | hb
      · exact hzf.trans hz.symm
      · obtain rfl := List.mem_singleton.1 hb
        exact hpf.trans hp.symm

/-- **An instruction is carried out with its flags if and only if** the last bit moved out is zero and, for a rotation,
SF, ZF and PF are those of the result beforehand. -/
theorem shift_flags_iff (op : ShiftOp) (n : Nat) (h : 1 ≤ n ∧ n ≤ 31) (flags : Flags) :
    (∀ v : BitVec 8, op.Performed v n flags (doShift8 flags op.num v n) ↔ op.Fits v n flags) ∧
      ∀ v : BitVec 16, op.Performed v n flags (doShift16 flags op.num v n) ↔ op.Fits v n flags :=
  ⟨fun v => performed_iff (by decide) op v flags h, fun v => performed_iff (by decide) op v flags h⟩

theorem shift_flags_iff_shl :
    ShiftOp.shl.Performed (0x81 : BitVec 8) 3 0 (doShift8 0 4 0x81 3) ↔ ShiftOp.shl.Fits (0x81 : BitVec 8) 3 0 :=
  (shift_flags_iff .shl 3 (by decide) 0).1 0x81

/-- `SHL AL, 1` of 80h: the bit moved out is one, and the carry is clear. -/
theorem shl_loses_carry : ¬ShiftOp.shl.Performed (0x80 : BitVec 8) 1 0 (doShift8 0 4 0x80 1) := by
  intro h
  have hcarry : getF (doShift8 0 4 0x80 1).2 fCf = true := h.carry
  revert hcarry
  decide

end WuBuOS.Dos
