import WuBuOS.Lib.Bytes
import WuBuOS.Lib.Latest
import Mathlib.Data.List.FinRange

/-!
# Checkpoints and rollback

`kernel/wubu_recovery.c`.  Five slots hold the states that were checkpointed last; a checkpoint goes to the slot that a
counter of 32 bits selects, modulo five, and `wubu_recovery_jesus` empties them all.

Since 5 does not divide `2 ^ 32`, the slots do not rotate when the counter wraps: the checkpoint before that and the
one after it both go to slot 0, and the second overwrites the newest state instead of the oldest.  For the four
checkpoints that follow, the slots do not hold the last five states; at all other times they do
(`ring_intact_iff`).
-/

namespace WuBuOS.Recovery

open Bytes Latest

/-! ## The data -/

/-- `WUBU_RECOVERY_PRINCIPLES_MAGIC`. -/
def principlesMagic : UInt32 := 0x4A455355

/-- `wubu_recovery_principles_t`. -/
structure Principles where
  magic : UInt32
  version : UInt32
  identity : Vector UInt8 32
  maxRollbackAttempts : UInt32
  jesusArmed : UInt32
  humanGateRequired : UInt32
  growthLoop : UInt32
  humanCentric : UInt32
  noThirdParty : UInt32
  noStubs : UInt32
  licenseOrigin : UInt32
  checksum : UInt32
  deriving Inhabited

/-- The bytes before `checksum`. -/
def Principles.bytes (p : Principles) : List UInt8 :=
  le 4 p.magic.toNat ++ le 4 p.version.toNat ++ p.identity.toList ++ le 4 p.maxRollbackAttempts.toNat ++
    le 4 p.jesusArmed.toNat ++ le 4 p.humanGateRequired.toNat ++ le 4 p.growthLoop.toNat ++
    le 4 p.humanCentric.toNat ++ le 4 p.noThirdParty.toNat ++ le 4 p.noStubs.toNat ++ le 4 p.licenseOrigin.toNat

/-- `wubu_recovery_slot_t`.  The payload has 512 bytes. -/
structure Slot where
  used : UInt32
  seq : UInt32
  size : UInt32
  crc : UInt32
  payload : Nat → UInt8
  deriving Inhabited

/-- `wubu_recovery_t`, with `WUBU_RECOVERY_SLOTS` slots. -/
structure RecoveryState where
  slots : Fin 5 → Slot
  principles : Principles
  nextSlot : UInt32
  seq : UInt32
  jesusUsed : UInt32
  rollbackCount : UInt32
  deriving Inhabited

/-! ## The functions -/

/-- One byte of the checksum. -/
def crcByte (crc : UInt32) (b : UInt8) : UInt32 :=
  (List.range 8).foldl (fun crc _ => (crc >>> 1) ^^^ (0xEDB88320 &&& (0 - (crc &&& 1)))) (crc ^^^ b.toUInt32)

def wubuRecoveryCrc32 (data : List UInt8) : UInt32 := ~~~data.foldl crcByte 0xFFFFFFFF

/-- A slot after `memset`. -/
def emptySlot : Slot := { used := 0, seq := 0, size := 0, crc := 0, payload := fun _ => 0 }

/-- The principles with the checksum that belongs to them. -/
def Principles.withChecksum (p : Principles) : Principles := { p with checksum := wubuRecoveryCrc32 p.bytes }

def wubuRecoveryInit (r : RecoveryState) : Option Principles → RecoveryState × Int
  | none => (r, -1)
  | some p =>
    ({ slots := fun _ => emptySlot, principles := { p with magic := principlesMagic }.withChecksum, nextSlot := 0
       seq := 0, jesusUsed := 0, rollbackCount := 0 }, 0)

/-- `r->next_slot % WUBU_RECOVERY_SLOTS`. -/
def slotOf (nextSlot : UInt32) : Fin 5 := Fin.ofNat 5 nextSlot.toNat

/-- What a checkpoint leaves in a slot; the rest of the payload stays. -/
def fillSlot (slot : Slot) (state : Nat → UInt8) (size seq : UInt32) : Slot :=
  { payload := write slot.payload 0 size.toNat state, size := size, used := 1, seq := seq
    crc := wubuRecoveryCrc32 (slice state 0 size.toNat) }

/-- The recovery state after a checkpoint that is not refused. -/
def RecoveryState.fill (r : RecoveryState) (state : Nat → UInt8) (size : UInt32) : RecoveryState :=
  let s := slotOf r.nextSlot
  { r with
    slots := Function.update r.slots s (fillSlot (r.slots s) state size r.seq)
    seq := r.seq + 1
    nextSlot := r.nextSlot + 1 }

def wubuRecoveryCheckpoint (r : RecoveryState) (state : Option (Nat → UInt8)) (size : UInt32) : RecoveryState × Int :=
  match state with
  | none => (r, -1)
  | some state =>
    if size = 0 then (r, -1)
    else if 512 < size then (r, -1)
    else (r.fill state size, (slotOf r.nextSlot).val)

/-- `wubu_recovery_rollback`, and what is in the memory at `out` afterwards. -/
def wubuRecoveryRollback (r : RecoveryState) (slot : UInt32) (out : Option (Nat → UInt8)) (cap : UInt32) :
    Int × Option (Nat → UInt8) :=
  match out with
  | none => (-1, none)
  | some out =>
    if h : slot.toNat < 5 then
      let s := r.slots ⟨slot.toNat, h⟩
      if s.used = 0 then (-1, some out)
      else if cap < s.size then (-1, some out)
      else (s.size.toInt32.toInt, some (write out 0 s.size.toNat s.payload))
    else (-1, some out)

/-- `wubu_recovery_jesus`, and the principles that it hands out.  The memory at `out` is not written. -/
def wubuRecoveryJesus (r : RecoveryState) (out : Option (Nat → UInt8)) : RecoveryState × Int × Option Principles :=
  match out with
  | none => (r, -1, none)
  | some _ =>
    if r.principles.jesusArmed = 0 then (r, -2, none)
    else ({ r with slots := fun _ => emptySlot, nextSlot := 0, jesusUsed := 1 }, 0, some r.principles)

def wubuRecoveryArmJesus (r : RecoveryState) (armed : UInt32) : RecoveryState × Int :=
  ({ r with principles := { r.principles with jesusArmed := if armed ≠ 0 then 1 else 0 }.withChecksum }, 0)

def wubuRecoveryVerify (r : RecoveryState) (slot : UInt32) : Int :=
  if h : slot.toNat < 5 then
    let s := r.slots ⟨slot.toNat, h⟩
    if s.used = 0 then 0
    else if wubuRecoveryCrc32 (slice s.payload 0 s.size.toNat) = s.crc then 1
    else 0
  else -1

/-- `wubu_recovery_container`, and the number of the container. -/
def wubuRecoveryContainer (r : RecoveryState) (workingSet : Option (Nat → UInt8)) (size : UInt32)
    (hasContainerId : Bool) : RecoveryState × Int × Option UInt32 :=
  if workingSet.isNone ∨ ¬hasContainerId then (r, -1, none)
  else
    let c := wubuRecoveryCheckpoint r workingSet size
    if c.2 < 0 then (c.1, -1, none) else (c.1, 0, some (UInt32.ofNat c.2.toNat))

/-! ## Runs -/

/-- A checkpoint that was successful: the slot it returned, and the state. -/
structure Entry where
  slot : Fin 5
  state : List UInt8
  deriving DecidableEq

/-- The recovery state, and the successful checkpoints since it was set up or emptied, the latest first. -/
structure Sys where
  r : RecoveryState
  taken : List Entry

/-- The calls that change the recovery state. -/
inductive Call
  | init (p : Option Principles)
  | checkpoint (state : Option (Nat → UInt8)) (size : UInt32)
  | container (workingSet : Option (Nat → UInt8)) (size : UInt32) (hasContainerId : Bool)
  | jesus (out : Option (Nat → UInt8))
  | armJesus (armed : UInt32)

/-- A checkpoint, with what it returned: if that is not negative, it is a slot. -/
def record (s : Sys) (state : Option (Nat → UInt8)) (size : UInt32) (c : RecoveryState × Int) : Sys :=
  if c.2 < 0 then ⟨c.1, s.taken⟩
  else ⟨c.1, ⟨Fin.ofNat 5 c.2.toNat, (state.map fun m => slice m 0 size.toNat).getD []⟩ :: s.taken⟩

/-- One call. -/
def step (s : Sys) : Call → Sys
  | .init p =>
    let c := wubuRecoveryInit s.r p
    ⟨c.1, if c.2 < 0 then s.taken else []⟩
  | .checkpoint state size => record s state size (wubuRecoveryCheckpoint s.r state size)
  | .container workingSet size hasContainerId =>
    let c := wubuRecoveryContainer s.r workingSet size hasContainerId
    record s workingSet size (c.1, (c.2.2.map fun id => (id.toNat : Int)).getD (-1))
  | .jesus out =>
    let c := wubuRecoveryJesus s.r out
    ⟨c.1, if c.2.1 < 0 then s.taken else []⟩
  | .armJesus armed => ⟨(wubuRecoveryArmJesus s.r armed).1, s.taken⟩

/-- The state after `wubu_recovery_init`, whatever was in the memory before. -/
def start (r : RecoveryState) (p : Principles) : Sys := ⟨(wubuRecoveryInit r (some p)).1, []⟩

/-- The state after these calls. -/
def run (s : Sys) (calls : List Call) : Sys := calls.foldl step s

/-- The states in the slots that are used. -/
def usedStates (r : RecoveryState) : List (List UInt8) :=
  ((List.finRange 5).filter fun s => (r.slots s).used ≠ 0).map fun s =>
    slice (r.slots s).payload 0 (r.slots s).size.toNat

/-- **The slots hold the last five states**, or all, if there are fewer: these and no others; every slot that is used
verifies; and each of these states can be had back from the slot that its checkpoint returned. -/
structure Intact (s : Sys) : Prop where
  used : (usedStates s.r).Perm ((s.taken.take 5).map Entry.state)
  verifies : ∀ k : Fin 5, (s.r.slots k).used ≠ 0 → wubuRecoveryVerify s.r (UInt32.ofNat k) = 1
  rollback : ∀ e ∈ s.taken.take 5, ∀ out (cap : UInt32), e.state.length ≤ cap.toNat →
    ∃ out', wubuRecoveryRollback s.r (UInt32.ofNat e.slot) (some out) cap = ((e.state.length : Int), some out') ∧
      slice out' 0 e.state.length = e.state

/-! ## One call -/

/-- The state in a slot is that of the entry. -/
structure Holds (slot : Slot) (e : Entry) : Prop where
  used : slot.used = 1
  size : slot.size.toNat ≤ 512
  state : slice slot.payload 0 slot.size.toNat = e.state
  crc : slot.crc = wubuRecoveryCrc32 e.state

/-- **Each slot holds the latest state that was put there**, and the counter counts modulo `2 ^ 32`. -/
structure Inv (s : Sys) : Prop where
  next : s.r.nextSlot.toNat = s.taken.length % 2 ^ 32
  slot : ∀ p e, s.taken[p]? = some e → e.slot.val = (s.taken.length - 1 - p) % 2 ^ 32 % 5
  empty : ∀ k, latest Entry.slot s.taken k = none → (s.r.slots k).used = 0
  holds : ∀ k e, latest Entry.slot s.taken k = some e → Holds (s.r.slots k) e

variable {s : Sys} {r : RecoveryState}

theorem inv_empty (hnext : r.nextSlot = 0) (hslots : r.slots = fun _ => emptySlot) : Inv ⟨r, []⟩ where
  next := by rw [hnext]; rfl
  slot p e h := by simp at h
  empty k _ := by rw [hslots]; rfl
  holds k e h := by simp [latest] at h

theorem start_inv (r : RecoveryState) (p : Principles) : Inv (start r p) := inv_empty rfl rfl

theorem slice_write (m f : Nat → UInt8) (n : Nat) : slice (write m 0 n f) 0 n = slice f 0 n := by
  refine slice_congr fun i hi => ?_
  rw [write_inside hi, Nat.zero_add]

/-- What a checkpoint puts into a slot can be read back. -/
theorem holds_fillSlot (slot : Slot) (m : Nat → UInt8) (k : Fin 5) {size seq : UInt32} (hsize : size.toNat ≤ 512) :
    Holds (fillSlot slot m size seq) ⟨k, slice m 0 size.toNat⟩ :=
  ⟨rfl, hsize, slice_write _ m _, rfl⟩

/-- A checkpoint fails, or fills the slot that the counter selects. -/
theorem checkpoint_cases (r : RecoveryState) (state : Option (Nat → UInt8)) (size : UInt32) :
    wubuRecoveryCheckpoint r state size = (r, -1) ∨ ∃ m, state = some m ∧ size.toNat ≤ 512 ∧
        wubuRecoveryCheckpoint r state size = (r.fill m size, ((slotOf r.nextSlot).val : Int)) := by
  cases state with
  | none => exact Or.inl rfl
  | some m =>
    rw [wubuRecoveryCheckpoint]
    split
    · exact Or.inl rfl
    · split
      · exact Or.inl rfl
      · rename_i hsize
        exact Or.inr ⟨m, rfl, UInt32.not_lt.1 hsize, rfl⟩

/-- The entry that a successful checkpoint leaves. -/
def Sys.entry (s : Sys) (m : Nat → UInt8) (size : UInt32) : Entry := ⟨slotOf s.r.nextSlot, slice m 0 size.toNat⟩

/-- A successful checkpoint is recorded with the slot that was filled. -/
theorem record_checkpoint {m : Nat → UInt8} {size : UInt32} :
    record s (some m) size (r, ((slotOf s.r.nextSlot).val : Int)) = ⟨r, s.entry m size :: s.taken⟩ := by
  rw [record, if_neg (by omega), Sys.entry, Int.toNat_natCast, Fin.ofNat_val_eq_self]
  rfl

/-- A checkpoint of 1 to 512 bytes is successful. -/
theorem step_checkpoint (s : Sys) (m : Nat → UInt8) {size : UInt32} (h0 : size ≠ 0) (hsize : ¬512 < size) :
    step s (.checkpoint (some m) size) = ⟨s.r.fill m size, s.entry m size :: s.taken⟩ := by
  rw [step, wubuRecoveryCheckpoint, if_neg h0, if_neg hsize, record_checkpoint]

/-- **A checkpoint keeps the invariant.** -/
theorem record_inv (hi : Inv s) (state : Option (Nat → UInt8)) (size : UInt32) :
    Inv (record s state size (wubuRecoveryCheckpoint s.r state size)) := by
  rcases checkpoint_cases s.r state size with h | ⟨m, rfl, hsize, h⟩
  · rw [h]
    exact hi
  · rw [h, record_checkpoint]
    have hslots : ∀ k, k ≠ slotOf s.r.nextSlot → (s.r.fill m size).slots k = s.r.slots k := fun k hk =>
      Function.update_of_ne hk ..
    refine ⟨?_, fun p e he => ?_, fun k hk => ?_, fun k e he => ?_⟩
    · show (s.r.nextSlot + 1).toNat = (s.taken.length + 1) % 2 ^ 32
      rw [UInt32.toNat_add, hi.next]
      exact Nat.mod_add_mod ..
    · rw [List.length_cons]
      cases p with
      | zero =>
        obtain rfl : s.entry m size = e := by simpa using he
        show s.r.nextSlot.toNat % 5 = _
        rw [hi.next]
        rfl
      | succ p =>
        have := hi.slot p e (by simpa using he)
        rw [this, show s.taken.length + 1 - 1 - (p + 1) = s.taken.length - 1 - p by omega]
    · rcases eq_or_ne k (slotOf s.r.nextSlot) with rfl | hne
      · exact absurd hk (by rw [show slotOf s.r.nextSlot = (s.entry m size).slot from rfl, latest_cons_self]; simp)
      · rw [latest_cons_of_ne (show k ≠ (s.entry m size).slot from hne)] at hk
        rw [hslots k hne]
        exact hi.empty k hk
    · rcases eq_or_ne k (slotOf s.r.nextSlot) with rfl | hne
      · rw [show slotOf s.r.nextSlot = (s.entry m size).slot from rfl, latest_cons_self] at he
        cases he
        show Holds (Function.update s.r.slots (slotOf s.r.nextSlot) _ (slotOf s.r.nextSlot)) _
        rw [Function.update_self]
        exact holds_fillSlot _ m _ hsize
      · rw [latest_cons_of_ne (show k ≠ (s.entry m size).slot from hne)] at he
        rw [hslots k hne]
        exact hi.holds k e he

/-- Every call keeps it. -/
theorem step_inv (hi : Inv s) (c : Call) : Inv (step s c) := by
  cases c with
  | init p =>
    cases p with
    | none => exact hi
    | some p => exact inv_empty rfl rfl
  | checkpoint state size => exact record_inv hi state size
  | container workingSet size hasContainerId =>
    rw [step, wubuRecoveryContainer]
    split
    · exact hi
    · dsimp only
      have hi' := record_inv hi workingSet size
      rcases checkpoint_cases s.r workingSet size with h | ⟨m, rfl, hsize, h⟩
      · rw [h] at hi' ⊢
        exact hi'
      · rw [h] at hi' ⊢
        have hid : (UInt32.ofNat (((slotOf s.r.nextSlot).val : Int)).toNat).toNat = (slotOf s.r.nextSlot).val := by
          rw [Int.toNat_natCast]
          exact UInt32.toNat_ofNat_of_lt (by have := (slotOf s.r.nextSlot).isLt; simp only [UInt32.size]; omega)
        rw [if_neg (by simp)]
        simp only [Option.map_some, Option.getD_some, hid]
        exact hi'
  | jesus out =>
    cases out with
    | none => exact hi
    | some m =>
      rw [step, wubuRecoveryJesus]
      split
      · exact hi
      · exact inv_empty rfl rfl
  | armJesus armed => exact ⟨hi.next, hi.slot, hi.empty, hi.holds⟩

theorem run_concat (s : Sys) (calls : List Call) (c : Call) : run s (calls ++ [c]) = step (run s calls) c :=
  List.foldl_concat ..

theorem run_inv (hi : Inv s) (calls : List Call) : Inv (run s calls) := by
  induction calls generalizing s with
  | nil => exact hi
  | cons c calls ih => exact ih (step_inv hi c)

/-! ## What the slots hold -/

/-- A number below `2 ^ 31` is the same as an `int`. -/
theorem toInt_toInt32 {x : UInt32} (h : x.toNat < 2 ^ 31) : x.toInt32.toInt = (x.toNat : Int) := by
  have hbits : x.toBitVec.toNat = x.toNat := rfl
  show x.toBitVec.toInt = _
  rw [BitVec.toInt_eq_toNat_of_lt (by omega), hbits]

theorem toNat_ofNat_slot (k : Fin 5) : (UInt32.ofNat k.val).toNat = k.val :=
  UInt32.toNat_ofNat_of_lt (by have := k.isLt; simp only [UInt32.size]; omega)

theorem ofNat_slot (k : Fin 5) : ∃ hlt : (UInt32.ofNat k.val).toNat < 5, (⟨_, hlt⟩ : Fin 5) = k :=
  ⟨(toNat_ofNat_slot k).trans_lt k.isLt, Fin.ext (toNat_ofNat_slot k)⟩

/-- A slot that holds a state verifies. -/
theorem Holds.verify {k : Fin 5} {e : Entry} (hk : Holds (r.slots k) e) :
    wubuRecoveryVerify r (UInt32.ofNat k) = 1 := by
  obtain ⟨hlt, hslot⟩ := ofNat_slot k
  rw [wubuRecoveryVerify, dif_pos hlt, hslot]
  simp [hk.used, hk.state, hk.crc]

/-- **The state in a slot can be had back.** -/
theorem Holds.rollback {k : Fin 5} {e : Entry} (hk : Holds (r.slots k) e) (out : Nat → UInt8)
    {cap : UInt32} (hcap : e.state.length ≤ cap.toNat) :
    ∃ out', wubuRecoveryRollback r (UInt32.ofNat k) (some out) cap = ((e.state.length : Int), some out') ∧
      slice out' 0 e.state.length = e.state := by
  obtain ⟨hlt, hslot⟩ := ofNat_slot k
  have hlen : e.state.length = (r.slots k).size.toNat := by
    rw [← hk.state, length_slice]
  have hint := toInt_toInt32 (hk.size.trans_lt (by decide))
  have hfits : ¬cap < (r.slots k).size := by
    rw [UInt32.lt_iff_toNat_lt]
    omega
  refine ⟨write out 0 (r.slots k).size.toNat (r.slots k).payload, ?_, ?_⟩
  · rw [wubuRecoveryRollback, dif_pos hlt, hslot]
    rw [if_neg (by simp [hk.used]), if_neg hfits, hint, hlen]
  · rw [hlen, slice_write, hk.state]

/-- The slots of the last five checkpoints are distinct, unless the counter has wrapped less than five checkpoints
ago. -/
theorem slot_ne {n p q : Nat} (hpq : p < q) (hq : q < 5) (hqn : q < n)
    (hn : n < 2 ^ 32 ∨ n % 2 ^ 32 = 0 ∨ 5 ≤ n % 2 ^ 32) :
    (n - 1 - p) % 2 ^ 32 % 5 ≠ (n - 1 - q) % 2 ^ 32 % 5 := by
  obtain ⟨j, rfl⟩ : ∃ j, n = j + 1 + q := ⟨n - 1 - q, by omega⟩
  obtain ⟨d, rfl⟩ : ∃ d, q = p + d := ⟨q - p, by omega⟩
  rw [show j + 1 + (p + d) - 1 - p = j + d by omega, show j + 1 + (p + d) - 1 - (p + d) = j by omega]
  rcases Nat.lt_or_ge (j % 2 ^ 32 + d) (2 ^ 32) with hlt | hge
  · have hmod : (j + d) % 2 ^ 32 = j % 2 ^ 32 + d := by omega
    omega
  · -- the counter wraps between the two
    omega

theorem Inv.nodup (hi : Inv s)
    (hn : s.taken.length < 2 ^ 32 ∨ s.taken.length % 2 ^ 32 = 0 ∨ 5 ≤ s.taken.length % 2 ^ 32) :
    ((s.taken.take 5).map Entry.slot).Nodup := by
  refine List.pairwise_iff_getElem.2 fun p q hp hq hpq heq => ?_
  simp only [List.length_map, List.length_take] at hp hq
  simp only [List.getElem_map, List.getElem_take] at heq
  have h1 := hi.slot p _ (List.getElem?_eq_getElem (by omega))
  have h2 := hi.slot q _ (List.getElem?_eq_getElem (by omega))
  exact slot_ne hpq (by omega) (by omega) hn (h1.symm.trans ((congrArg Fin.val heq).trans h2))

/-- What is in the slots that are used: the latest state for each. -/
theorem Inv.usedStates_eq (hi : Inv s) :
    usedStates s.r = ((List.finRange 5).filterMap (latest Entry.slot s.taken)).map Entry.state := by
  rw [usedStates]
  induction List.finRange 5 with
  | nil => rfl
  | cons k keys ih =>
    cases hk : latest Entry.slot s.taken k with
    | none =>
      rw [List.filter_cons_of_neg (by simp [hi.empty k hk]), List.filterMap_cons_none hk]
      exact ih
    | some e =>
      have hh := hi.holds k e hk
      rw [List.filter_cons_of_pos (by simp [hh.used]), List.filterMap_cons_some hk, List.map_cons, List.map_cons,
        ih, hh.state]

/-- **The slots hold the last five states** if these went to different slots. -/
theorem Inv.intact (hi : Inv s) (hnd : ((s.taken.take 5).map Entry.slot).Nodup) : Intact s where
  used := by
    have hlen : (List.finRange 5).length = 5 := List.length_finRange
    have hperm := @perm_take _ _ _ Entry.slot s.taken _ (List.nodup_finRange 5)
      (fun e _ => List.mem_finRange e.slot) (by rwa [hlen])
    rw [hlen] at hperm
    rw [hi.usedStates_eq]
    exact hperm.map Entry.state
  verifies k hk := by
    cases h : latest Entry.slot s.taken k with
    | none => exact absurd (hi.empty k h) hk
    | some e => exact (hi.holds k e h).verify
  rollback e he out cap hcap := by
    have hlatest : latest Entry.slot (s.taken.take 5 ++ s.taken.drop 5) e.slot = some e := latest_of_nodup hnd he
    rw [List.take_append_drop] at hlatest
    exact (hi.holds e.slot e hlatest).rollback out hcap

/-! ## When the counter wraps -/

/-- So many checkpoints of one byte each, all the same but for the last one before the counter is `turn`. -/
def script (turn n : Nat) : List Call :=
  (List.range n).map fun i => .checkpoint (some fun _ => if i + 1 = turn then 1 else 0) 1

/-- What these checkpoints are recorded as. -/
def scriptEntry (turn i : Nat) : Entry := ⟨Fin.ofNat 5 (i % 2 ^ 32), [if i + 1 = turn then 1 else 0]⟩

theorem script_taken (r : RecoveryState) (p : Principles) (turn n : Nat) :
    (run (start r p) (script turn n)).taken = (List.range n).reverse.map (scriptEntry turn) := by
  induction n with
  | zero => rfl
  | succ n ih =>
    have hinv := run_inv (start_inv r p) (script turn n)
    have hlen : (run (start r p) (script turn n)).taken.length = n := by rw [ih]; simp
    have hscript : script turn (n + 1) =
        script turn n ++ [.checkpoint (some fun _ => if n + 1 = turn then 1 else 0) 1] := by
      rw [script, List.range_succ, List.map_append]
      rfl
    rw [hscript, run_concat, step_checkpoint _ _ (by decide) (by decide), Sys.entry, slotOf, hinv.next, hlen, ih, List.range_succ, List.reverse_concat, List.map_cons]
    rfl

/-- **After the counter has wrapped, slot 0 is filled twice in a row**, and the newest state is overwritten. -/
theorem overwritten (r : RecoveryState) (p : Principles) {turn k : Nat} (hturn : turn ≠ 0) (hwrap : turn % 2 ^ 32 = 0)
    (hk : 0 < k) (hk' : k < 5) : ¬Intact (run (start r p) (script turn (turn + k))) := by
  intro hintact
  have hinv := run_inv (start_inv r p) (script turn (turn + k))
  have htaken := script_taken r p turn (turn + k)
  generalize run (start r p) (script turn (turn + k)) = s at *
  have hget : ∀ i, i < turn + k → s.taken[i]? = some (scriptEntry turn (turn + k - 1 - i)) := by
    intro i hi
    rw [htaken, List.getElem?_map, List.getElem?_reverse (by simpa using hi), List.getElem?_range (by simp; omega)]
    simp
  have hlen : s.taken.length = turn + k := by rw [htaken]; simp
  have hmem : ∀ i j, i < j → j ≤ turn + k → scriptEntry turn (turn + k - 1 - i) ∈ s.taken.take j := by
    intro i j hij hj
    refine List.mem_take_iff_getElem.2 ⟨i, by omega, ?_⟩
    exact Option.some.inj ((List.getElem?_eq_getElem _).symm.trans (hget i (by omega)))
  -- the last checkpoint before the counter wraps, and the first one after that, went to the same slot
  have hold : ⟨0, [1]⟩ ∈ s.taken.take 5 := by
    have hentry : scriptEntry turn (turn - 1) = ⟨0, [1]⟩ := by
      rw [scriptEntry, if_pos (by omega), show (turn - 1) % 2 ^ 32 = 2 ^ 32 - 1 by omega]
      rfl
    have := hmem k 5 hk' (by omega)
    rwa [show turn + k - 1 - k = turn - 1 by omega, hentry] at this
  have hnew : ⟨0, [0]⟩ ∈ s.taken.take k := by
    have hentry : scriptEntry turn turn = ⟨0, [0]⟩ := by
      rw [scriptEntry, if_neg (by omega), hwrap]
      rfl
    have := hmem (k - 1) k (by omega) (by omega)
    rwa [show turn + k - 1 - (k - 1) = turn by omega, hentry] at this
  obtain ⟨e, he, -, hlatest⟩ : ∃ e ∈ s.taken.take k, e.slot = 0 ∧
      latest Entry.slot (s.taken.take k ++ s.taken.drop k) 0 = some e := latest_append hnew
  rw [List.take_append_drop] at hlatest
  have hstate : e.state = [0] := by
    obtain ⟨i, hi, hgi⟩ := List.mem_take_iff_getElem.1 he
    have := (List.getElem?_eq_getElem (by omega)).symm.trans (hget i (by omega))
    rw [← hgi, Option.some.inj this, scriptEntry, if_neg (by omega)]
  obtain ⟨out, hout, hbytes⟩ := hintact.rollback _ hold (fun _ => 0) 1 (by decide)
  have hcap : e.state.length ≤ (1 : UInt32).toNat := by rw [hstate]; decide
  obtain ⟨out', hout', hbytes'⟩ := (hinv.holds _ e hlatest).rollback (fun _ => 0) hcap
  have hsame : out = out' := Option.some.inj (congrArg Prod.snd (hout.symm.trans hout'))
  rw [hstate, ← hsame] at hbytes'
  have hne : ([1] : List UInt8) = [0] := hbytes.symm.trans hbytes'
  exact absurd hne (by decide)

/-- **When the slots hold the last five states**: for so many checkpoints, whatever they are of and whatever other
calls there are, if and only if the counter has not wrapped less than five checkpoints ago. -/
theorem ring_intact_iff (n : Nat) :
    (∀ r p calls, (run (start r p) calls).taken.length = n → Intact (run (start r p) calls)) ↔
      n < 2 ^ 32 ∨ n % 2 ^ 32 = 0 ∨ 5 ≤ n % 2 ^ 32 := by
  constructor
  · intro h
    by_contra hn
    have hlen : (run (start default default) (script (n - n % 2 ^ 32) n)).taken.length = n := by
      rw [script_taken]
      simp
    have hover : ¬Intact (run (start default default) (script (n - n % 2 ^ 32) (n - n % 2 ^ 32 + n % 2 ^ 32))) :=
      overwritten default default (by omega) (by omega) (by omega) (by omega)
    rw [Nat.sub_add_cancel (Nat.mod_le ..)] at hover
    exact hover (h _ _ _ hlen)
  · rintro h r p calls rfl
    have hinv := run_inv (start_inv r p) calls
    exact hinv.intact (hinv.nodup h)

/-- After `2 ^ 32 + 1` checkpoints the last but one is lost. -/
theorem newest_overwritten : ∃ r p calls, (run (start r p) calls).taken.length = 2 ^ 32 + 1 ∧
    ¬Intact (run (start r p) calls) := by
  refine ⟨default, default, script (2 ^ 32) (2 ^ 32 + 1), ?_, ?_⟩
  · rw [script_taken, List.length_map, List.length_reverse, List.length_range]
  · exact overwritten default default (by omega) (by omega) (by omega) (by omega)

end WuBuOS.Recovery
