import WuBuOS.Jit.EncoderMeaning
import WuBuOS.Jit.RegAlloc
import WuBuOS.Lib.Runs

/-!
# The register allocator at work

The emitted code is executed as it is emitted, by the machine of `Amd64`.  `World` is the allocator
together with that machine, `World.step` a call of the allocator or a write of the program to the register of
a virtual register, and `World.Calls` the calls that are allowed.  What an eviction or `xra_spill_store`
saves is remembered beside them, in `World.kept`.
-/

namespace WuBuOS
namespace Jit

variable {ra ra' : XRARegAlloc} {v slot slot' : Int} {hw hw' : Wx86Reg} {m : Amd64.State} {x : BitVec 64}

/-! ## Spill slots in memory -/

theorem cInt_of {n : Int} (h : -2 ^ 31 ≤ n) (h' : n < 2 ^ 31) : cInt n = n :=
  Int.bmod_eq_of_le (by omega) (by omega)

theorem toInt_slotOffset (h : 0 ≤ slot) (h' : slot < 2 ^ 28) : (slotOffset slot).toInt = -(8 * (slot + 1)) := by
  rw [slotOffset, BitVec.toInt_ofInt]
  exact Int.bmod_eq_of_le (by omega) (by omega)

/-- Where a slot is in memory. -/
def slotAddr (m : Amd64.State) (slot : Int) : Int := m.addr Wx86Reg.rbp.toAmd64 (slotOffset slot)

theorem slotAddr_eq (m : Amd64.State) (h : 0 ≤ slot) (h' : slot < 2 ^ 28) :
    slotAddr m slot = ((m.reg Wx86Reg.rbp.toAmd64).toNat - 8 * (slot + 1)) % 2 ^ 64 := by
  have hext : (slotOffset slot).signExtend 64 = .ofInt 64 (-(8 * (slot + 1))) := by
    rw [← toInt_slotOffset h h']
    rfl
  rw [slotAddr, Amd64.State.addr, hext, BitVec.toNat_add, BitVec.toNat_ofInt]
  omega

/-- Two slots are apart. -/
theorem load_store_slot (m : Amd64.State) (x : BitVec 64) (h : 0 ≤ slot) (h' : slot < 2 ^ 28) (hs : 0 ≤ slot')
    (hs' : slot' < 2 ^ 28) (hne : slot' ≠ slot) :
    X86.load (X86.store m.mem (slotAddr m slot) x) (slotAddr m slot') = X86.load m.mem (slotAddr m slot') := by
  refine X86.load_congr fun a ha ha' => X86.store_outside ?_
  rw [slotAddr_eq m hs hs'] at ha ha'
  rw [slotAddr_eq m h h']
  omega

/-! ## The emitted code -/

theorem exec_store (d : BitVec 32) (hw : Wx86Reg) (m : Amd64.State) : Amd64.exec (wx86MovMemReg .rbp d hw) m =
      some { m with mem := X86.store m.mem (m.addr Wx86Reg.rbp.toAmd64 d) (m.reg hw.toAmd64) } :=
  (encodes_movMemReg (by decide) d hw).exec m

theorem exec_load (d : BitVec 32) (hw : Wx86Reg) (m : Amd64.State) : Amd64.exec (wx86MovRegMem hw .rbp d) m =
      some (m.setReg hw.toAmd64 (X86.load m.mem (m.addr Wx86Reg.rbp.toAmd64 d))) :=
  (encodes_movRegMem (by decide) d hw).exec m

theorem exec_imm (k : BitVec 64) (hw : Wx86Reg) (m : Amd64.State) :
    Amd64.exec (wx86MovRegImm64 hw k) m = some (m.setReg hw.toAmd64 k) :=
  (encodes_movRegImm64 hw k).exec m

/-! ## Who has which register -/

/-- The register holds the virtual register. -/
def XRARegAlloc.Assigned (ra : XRARegAlloc) (hw : Wx86Reg) (v : Int) : Prop :=
  (ra.regs hw).state = .alloced ∧ (ra.regs hw).vreg = v

open XRARegAlloc

theorem mem_wx86Regs (hw : Wx86Reg) : hw ∈ wx86Regs := by
  cases hw <;> decide

theorem getReg_some (h : xraGetReg ra v = some hw) : ra.Assigned hw v := by
  have hp := List.find?_some h
  rw [decide_eq_true_eq] at hp
  exact ⟨hp.2, hp.1⟩

theorem getReg_none : xraGetReg ra v = none ↔ ∀ hw, ¬ra.Assigned hw v := by
  rw [xraGetReg, List.find?_eq_none]
  constructor
  · intro h hw ha
    have := h hw (mem_wx86Regs hw)
    rw [decide_eq_true_eq] at this
    exact this ⟨ha.2, ha.1⟩
  · intro h hw _ hp
    rw [decide_eq_true_eq] at hp
    exact h hw ⟨hp.2, hp.1⟩

theorem assigned_give {u : Int} (hf : (ra.regs hw).state = .free) :
    (ra.give hw v).Assigned hw' u ↔ hw' = hw ∧ u = v ∨ ra.Assigned hw' u := by
  by_cases h : hw' = hw
  · subst h
    simp [Assigned, give, hf, eq_comm]
  · simp [Assigned, give, h]

theorem assigned_release : (ra.release hw).Assigned hw' v ↔ hw' ≠ hw ∧ ra.Assigned hw' v := by
  by_cases h : hw' = hw
  · subst h
    simp [Assigned, release]
  · simp [Assigned, release, h]

/-! ## What the functions do -/

/-- The outcomes of `xra_alloc`. -/
inductive Allocs (ra : XRARegAlloc) (v : Int) : Option Wx86Reg × XRARegAlloc → Prop
  | taken {hw : Wx86Reg} {n : Int} (hf : (ra.regs hw).state = .free) (hv : 0 ≤ v ∧ v < XRA_MAX_VREGS)
      (hn : n = ra.nCalleeSaved ∨ n = cInt (ra.nCalleeSaved + 1)) :
      Allocs ra v (some hw, { ra.give hw v with nCalleeSaved := n })
  | full {n : Int} (hn : n = ra.nextSpill ∨ n = cInt (ra.nextSpill + 1)) :
      Allocs ra v (none, { ra with nextSpill := n })

theorem firstFree_some {pool : List Wx86Reg} (h : ra.firstFree pool = some hw) : (ra.regs hw).state = .free := by
  have hp := List.find?_some h
  rwa [decide_eq_true_eq] at hp

theorem xraAlloc_spec (ra : XRARegAlloc) (v : Int) : Allocs ra v (xraAlloc ra v) := by
  rw [xraAlloc]
  split
  · exact .full (.inl rfl)
  · have hv : 0 ≤ v ∧ v < XRA_MAX_VREGS := by omega
    split
    · exact .taken (firstFree_some ‹_›) hv (.inl rfl)
    · split
      · exact .taken (firstFree_some ‹_›) hv (.inr rfl)
      · split
        · exact .taken (firstFree_some ‹_›) hv (.inl rfl)
        · exact .full (.inr rfl)

/-- The victim of an eviction is a register that holds a virtual register. -/
def Farthest.Fair (ra : XRARegAlloc) (b : Farthest) : Prop :=
  ra.Assigned b.victim b.vreg ∧ 0 ≤ b.vreg ∧ b.vreg < XRA_MAX_VREGS

theorem evictTurn_fair {best : Option Farthest} (h : ∀ b, best = some b → b.Fair ra) (hw : Wx86Reg) :
    ∀ b, evictTurn ra best hw = some b → b.Fair ra := by
  intro b hb
  rw [evictTurn] at hb
  split at hb
  · exact h b hb
  · have hs : (ra.regs hw).state = .alloced := not_not.1 ‹_›
    dsimp only at hb
    split at hb
    · exact h b hb
    · have hnew : ∀ key, Farthest.Fair ra ⟨hw, (ra.regs hw).vreg, key⟩ := fun _ => ⟨⟨hs, rfl⟩, by
        show 0 ≤ (ra.regs hw).vreg ∧ (ra.regs hw).vreg < XRA_MAX_VREGS
        omega⟩
      generalize (if ra.vregNextUse (ra.regs hw).vreg < 0 then INT32_MAX
        else ra.vregNextUse (ra.regs hw).vreg) = key at hb
      cases best with
      | none => exact Option.some.inj hb ▸ hnew key
      | some b0 =>
        by_cases hk : key > b0.farthest
        · exact Option.some.inj ((if_pos hk).symm.trans hb) ▸ hnew key
        · exact h b ((if_neg hk).symm.trans hb)

theorem evict_fair : ∀ (l : List Wx86Reg) {best : Option Farthest}, (∀ b, best = some b → b.Fair ra) →
    ∀ b, l.foldl (evictTurn ra) best = some b → b.Fair ra
  | [], _, h => h
  | hw :: l, _, h => evict_fair l (evictTurn_fair h hw)

/-! ## Runs -/

/-- What has been saved after the registers that are lost from one table to the next. -/
def savedBy (ra ra' : XRARegAlloc) (m : Amd64.State) (kept : Int → Option (BitVec 64)) :
    Int → Option (BitVec 64) := fun u =>
  match xraGetReg ra u, xraGetReg ra' u with
  | some hw, none => some (m.reg hw.toAmd64)
  | _, _ => kept u

/-- The same for a virtual register whose register, if it has one, is stored. -/
def storedBy (ra : XRARegAlloc) (v : Int) (m : Amd64.State) (kept : Int → Option (BitVec 64)) :
    Int → Option (BitVec 64) :=
  match xraGetReg ra v with
  | some hw => Function.update kept v (some (m.reg hw.toAmd64))
  | none => kept

/-- The allocator, the machine that executes what it emits, and what every virtual register had when it was
last evicted or stored. -/
structure World where
  ra : XRARegAlloc
  machine : Amd64.State
  kept : Int → Option (BitVec 64)

/-- The calls, and a write of the program to the register of a virtual register. -/
inductive XRACall where
  | allocEvict (vreg : Int)
  | spillLoad (vreg : Int)
  | spillStore (vreg : Int)
  | freeReg (hw : Wx86Reg)
  | setNextUse (vreg nextUse : Int)
  | markConst (vreg : Int) (val : BitVec 64)
  | write (vreg : Int) (val : BitVec 64)

namespace World

def init (nArgs : Int) (m : Amd64.State) : World := ⟨xraInit nArgs, m, fun _ => none⟩

/-- A register is asked for only when there is none yet, and only an allocated one is freed. -/
def Permits (w : World) : XRACall → Prop
  | .allocEvict v | .spillLoad v => xraGetReg w.ra v = none
  | .freeReg hw => (w.ra.regs hw).state = .alloced
  | .spillStore _ | .setNextUse _ _ | .markConst _ _ | .write _ _ => True

/-- Execute what a call has emitted. -/
def emitted (w : World) (ra : XRARegAlloc) (e : List UInt8) (kept : Int → Option (BitVec 64)) : Option World :=
  (Amd64.exec e w.machine).map fun m => ⟨ra, m, kept⟩

def step (w : World) : XRACall → Option World
  | .allocEvict v =>
    let (_, ra, e) := xraAllocEvict w.ra v
    w.emitted ra e (savedBy w.ra ra w.machine w.kept)
  | .spillLoad v =>
    let (_, ra, e) := xraSpillLoad w.ra v
    w.emitted ra e (savedBy w.ra ra w.machine w.kept)
  | .spillStore v =>
    let (ra, e) := xraSpillStore w.ra v
    w.emitted ra e (storedBy w.ra v w.machine w.kept)
  | .freeReg hw => some { w with ra := xraFreeReg w.ra hw }
  | .setNextUse v n => some { w with ra := xraSetNextUse w.ra v n }
  | .markConst v k => some { w with ra := xraMarkConst w.ra v k }
  | .write v x =>
    some (match xraGetReg w.ra v with
      | some hw => { w with machine := w.machine.setReg hw.toAmd64 x }
      | none => w)

/-- The sum that `xra_finalize` rounds is an `int`. -/
def Fits (w : World) : Prop := 8 * (w.ra.nCalleeSaved + w.ra.nextSpill) + 15 ≤ INT32_MAX

/-- A permitted call. -/
def Calls (w : World) (op : XRACall) (w' : World) : Prop := w.Permits op ∧ w.step op = some w'

/-- A permitted call that leaves the counters in range. -/
def Step (w : World) (op : XRACall) (w' : World) : Prop := w.Calls op w' ∧ w'.Fits

/-- A constant is what its virtual register really holds, and it is not changed afterwards. -/
def Honest (w : World) : XRACall → Prop
  | .markConst v k => ∃ hw, xraGetReg w.ra v = some hw ∧ w.machine.reg hw.toAmd64 = k
  | .write v x => xraIsConst w.ra v → x = w.ra.vregConstVal v
  | .allocEvict v => xraIsConst w.ra v = false
  | .spillLoad _ | .spillStore _ | .freeReg _ | .setNextUse _ _ => True

end World

end Jit
end WuBuOS
