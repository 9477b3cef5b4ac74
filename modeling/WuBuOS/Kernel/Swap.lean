import Mathlib.Data.Fintype.Card
import WuBuOS.Kernel.Vmm
import WuBuOS.Lib.Bytes
import WuBuOS.Lib.Runs
import WuBuOS.Lib.SlotMap

/-!
# Swapping pages out and in

`kernel/wubu_swap.c`.  Four tables are kept: the slots of the swap area, the slot of every frame, and for
every slot an address and whether the address counts.  They say "absent" in four ways: a free slot is `-1`, a
frame that is not out has 0 and any other the number of its slot plus one, and so has the table of addresses.

The disk and the page tables do what they are asked.  `History` keeps, beside the tables, what the callers
were told: every frame that went out, the slot that was returned, and what the frame held.
-/

namespace WuBuOS.Swap

open Function (update)

/-! ## The model -/

def page : Nat := 4096

/-- `WUBU_SWAP_SLOTS`. -/
def swapSlots : Nat := 512

/-- `WUBU_SWAP_SECTOR`, and the bytes of a sector. -/
def swapSector : Nat := 4096

def sectorBytes : Nat := 512

/-- `WUBU_SWAP_PAGE_SECS`. -/
def swapPageSecs : Nat := 8

/-- The frames of `g_frame_slot`. -/
def frames : Nat := 4096

/-- A call to `wubu_vmm_unmap` or `wubu_vmm_map_page`. -/
inductive VmmCall where
  | unmap (va : Nat)
  | mapPage (va phys flags : Nat)
  deriving DecidableEq

/-- The tables, the memory and the disk, and the calls that were made to the page tables. -/
structure SwapState where
  /-- `done` of `slot_init`. -/
  done : Bool
  /-- `g_slots`. -/
  slots : Fin swapSlots → Int
  /-- `g_swap_count`. -/
  count : UInt32
  /-- `g_frame_slot`. -/
  frameSlot : Fin frames → Nat
  /-- `g_va_slot`. -/
  vaSlot : Fin swapSlots → Nat
  /-- `g_va_addr`. -/
  vaAddr : Fin swapSlots → Nat
  /-- The physical memory. -/
  mem : Nat → UInt8
  /-- The disk, by bytes. -/
  disk : Nat → UInt8
  vmm : List VmmCall

/-- The tables as the program starts. -/
def boot (mem disk : Nat → UInt8) : SwapState where
  done := false
  slots _ := 0
  count := 0
  frameSlot _ := 0
  vaSlot _ := 0
  vaAddr _ := 0
  mem := mem
  disk := disk
  vmm := []

def slotInit (s : SwapState) : SwapState :=
  if s.done then s else { s with done := true, slots := fun _ => -1, frameSlot := fun _ => 0 }

/-- `(phys - WUBU_VMM_PHYS_BASE) / PAGE`, and its checks. -/
def frameIndex (phys : Nat) : Option (Fin frames) :=
  if phys < Vmm.physBase then none
  else if h : (phys - Vmm.physBase) / page < frames then some ⟨_, h⟩ else none

/-- `wubu_swap_slot_of`. -/
def slotOf (s : SwapState) (phys : Nat) : Int :=
  match frameIndex phys with
  | none => -1
  | some idx => if s.frameSlot idx ≠ 0 then s.frameSlot idx - 1 else -1

/-- The byte of the disk at which a slot starts. -/
def slotByte (slot : Fin swapSlots) : Nat := (swapSector + slot * swapPageSecs) * sectorBytes

/-- The search for a free slot. -/
def freeSlot (s : SwapState) : Option (Fin swapSlots) := (List.finRange swapSlots).find? fun i => s.slots i = -1

/-- `wubu_swap_out` from `disk_ensure` on. -/
def putOut (s : SwapState) (va phys : Nat) (idx : Fin frames) (slot : Fin swapSlots) : SwapState :=
  { s with
    disk := Bytes.write s.disk (slotByte slot) (swapPageSecs * sectorBytes) fun i => s.mem (phys + i)
    slots := update s.slots slot 1
    frameSlot := update s.frameSlot idx (slot + 1)
    vaSlot := update s.vaSlot slot (slot + 1)
    vaAddr := update s.vaAddr slot va
    count := s.count + 1
    vmm := s.vmm ++ [.unmap va] }

/-- `wubu_swap_out`: the tables after the call, and what it returns. -/
def swapOut (s : SwapState) (va phys : Nat) : SwapState × Int :=
  let s := slotInit s
  match frameIndex phys with
  | none => (s, -1)
  | some idx =>
    -- already out: the number in the table is the slot plus one
    if s.frameSlot idx ≠ 0 then (s, s.frameSlot idx)
    else
      match freeSlot s with
      | none => (s, -1)
      | some slot => (putOut s va phys idx slot, slot)

/-- The frame that owns a slot. -/
def ownerOf (s : SwapState) (slot : Fin swapSlots) : Option (Fin frames) :=
  (List.finRange frames).find? fun i => s.frameSlot i = slot + 1

/-- `WUBU_VMM_PHYS_BASE + frame * PAGE`. -/
def frameAddr (frame : Fin frames) : Nat := Vmm.physBase + frame * page

/-- `wubu_swap_in` from the read on. -/
def takeIn (s : SwapState) (va : Nat) (slot : Fin swapSlots) (frame : Fin frames) : SwapState :=
  { s with
    mem := Bytes.write s.mem (frameAddr frame) (swapPageSecs * sectorBytes) fun i => s.disk (slotByte slot + i)
    slots := update s.slots slot (-1)
    frameSlot := update s.frameSlot frame 0
    vaSlot := update s.vaSlot slot 0
    vaAddr := update s.vaAddr slot 0
    count := s.count - 1
    vmm := s.vmm ++ [.mapPage va (frameAddr frame) 3] }

/-- `wubu_swap_in`. -/
def swapIn (s : SwapState) (va slot : Nat) : SwapState × Int :=
  let s := slotInit s
  if h : slot < swapSlots then
    if s.slots ⟨slot, h⟩ = -1 then (s, -1)
    else
      match ownerOf s ⟨slot, h⟩ with
      | none => (s, -1)
      | some frame => (takeIn s va ⟨slot, h⟩ frame, 0)
  else (s, -1)

/-- `wubu_swap_va_slot`. -/
def vaSlotOf (s : SwapState) (va : Nat) : Int :=
  match (List.finRange swapSlots).find? fun i => s.vaSlot i ≠ 0 ∧ s.vaAddr i = va / page * page with
  | some i => i
  | none => -1

/-! ## What the callers were told -/

/-- A frame that was reported out. -/
structure Out where
  va : Nat
  phys : Nat
  /-- What `wubu_swap_out` returned. -/
  slot : Int
  /-- What the frame held then. -/
  contents : Nat → UInt8

/-- The tables and the frames that are out. -/
structure History where
  state : SwapState
  outs : List Out

/-- The calls, and what the rest of the system does to the memory. -/
inductive SwapOp where
  /-- `wubu_swap_out(va, phys)`. -/
  | out (va phys : Nat)
  /-- `wubu_swap_in(va, slot)`. -/
  | swapIn (va slot : Nat)
  | store (mem : Nat → UInt8)

/-- One call.  A frame is out from the call that returns its slot to the call that brings the slot in. -/
def step (h : History) : SwapOp → History
  | .out va phys =>
    let r := swapOut h.state va phys
    { state := r.1
      outs := if 0 ≤ r.2 then ⟨va, phys, r.2, fun i => h.state.mem (phys / page * page + i)⟩ :: h.outs else h.outs }
  | .swapIn va slot =>
    let r := swapIn h.state va slot
    { state := r.1
      outs := if r.2 = 0 then h.outs.filter fun o => o.slot ≠ slot else h.outs }
  | .store mem => { h with state := { h.state with mem := mem } }

/-- A call of `wubu_swap_in` with this slot, for whatever address, brings the contents back. -/
def Restores (s : SwapState) (o : Out) : Prop :=
  ∀ va, (swapIn s va o.slot.toNat).2 = 0 ∧
    ∀ i < page, (swapIn s va o.slot.toNat).1.mem (o.phys / page * page + i) = o.contents i

/-- The tables agree about a frame that is out. -/
structure Tracks (s : SwapState) (o : Out) : Prop where
  frame : slotOf s o.phys = o.slot
  address : ∀ a, a / page = o.va / page → vaSlotOf s a = o.slot
  restores : Restores s o

/-- The slots that are occupied. -/
def occupied (s : SwapState) : Finset (Fin swapSlots) := Finset.univ.filter fun i => s.slots i = 1

/-- **The tables agree.** -/
structure Agree (h : History) : Prop where
  tracks : ∀ o ∈ h.outs, Tracks h.state o
  single : ∀ i j : Fin frames, h.state.frameSlot i = h.state.frameSlot j → h.state.frameSlot i ≠ 0 → i = j
  count : h.state.count.toNat = (occupied h.state).card

/-- The call does not ask for what the tables get wrong: no frame of the region that is out goes out again,
and when a frame takes a slot, its address is that of a page, that of no other page that is out, and the
bytes at the physical address are those of the frame. -/
def Plain (h : History) : SwapOp → Prop
  | .out va phys => ∀ idx, frameIndex phys = some idx →
      (slotInit h.state).frameSlot idx = 0 ∧
        (freeSlot (slotInit h.state) ≠ none → va % page = 0 ∧
          (∀ i, (slotInit h.state).vaSlot i ≠ 0 → (slotInit h.state).vaAddr i ≠ va) ∧
          ∀ i < page, h.state.mem (phys + i) = h.state.mem (phys / page * page + i))
  | .swapIn _ _ => True
  | .store _ => True

end WuBuOS.Swap
