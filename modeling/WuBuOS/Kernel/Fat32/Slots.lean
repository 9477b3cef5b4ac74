import WuBuOS.Kernel.Fat32.Create
import Mathlib.Data.List.GetD

/-!
# The slots of a directory

A slot that is not free and no part of a long name has an entry in it (`IsEntry`), and the entry says
where its file begins (`slotCluster`).  Each of the functions that change a directory is
described by what it does to the slots of one cluster: deleting an entry leaves its slot without one,
closing a file changes nothing of this, and creating an entry puts it in a slot that was free, behind
the long-name slots.
-/

namespace WuBuOS.Fat32

open Bytes

variable {buf buf' : Buf} {vol : Volume} {name : List UInt8} {c i j n : Nat} {lfn : Lfn} {info : FileInfo}

/-- There is an entry in the slot. -/
def IsEntry (buf : Buf) (i : Nat) : Prop :=
  slotField buf i 0 1 ≠ 0x00 ∧ slotField buf i 0 1 ≠ 0xE5 ∧ slotField buf i 11 1 ≠ attrLfn

/-- The first cluster that an entry says its file has. -/
def slotCluster (buf : Buf) (i : Nat) : Nat := slotField buf i 20 2 * 2 ^ 16 + slotField buf i 26 2

theorem SameEntry.field (h : SameEntry buf buf' i) {o : Nat}
    (ho : o + n ≤ 18 ∨ (20 ≤ o ∧ o + n ≤ 22) ∨ (26 ≤ o ∧ o + n ≤ 28)) :
    slotField buf' i o n = slotField buf i o n :=
  slotField_congr fun k hk => h (o + k) (by omega)

theorem SameEntry.isEntry (h : SameEntry buf buf' i) : IsEntry buf' i ↔ IsEntry buf i := by
  rw [IsEntry, IsEntry, h.field (by decide), h.field (by decide)]

theorem SameEntry.slotCluster (h : SameEntry buf buf' i) : slotCluster buf' i = slotCluster buf i := by
  rw [Fat32.slotCluster, Fat32.slotCluster, h.field (by decide), h.field (by decide)]

theorem SameSlot.trans {buf'' : Buf} (h : SameSlot buf buf' i) (h' : SameSlot buf' buf'' i) :
    SameSlot buf buf'' i := fun o ho => (h' o ho).trans (h o ho)

/-- Two slots do not meet. -/
theorem slot_apart (h : i ≠ j) : i * dirEntrySize + dirEntrySize ≤ j * dirEntrySize ∨
      j * dirEntrySize + dirEntrySize ≤ i * dirEntrySize := by
  rw [← Nat.succ_mul, ← Nat.succ_mul]
  exact (Nat.lt_or_gt_of_ne h).imp (Nat.mul_le_mul_right _) (Nat.mul_le_mul_right _)

/-- Slots of the cluster are not clipped. -/
theorem clip_slot (vol : Volume) (buf : Buf) (hi : i < entriesPerCluster vol) : SameSlot buf (vol.clip buf) i := by
  intro o ho
  have hfit : (i + 1) * dirEntrySize ≤ vol.bytesPerCluster :=
    (Nat.mul_le_mul_right _ hi).trans (Nat.div_mul_le_self ..)
  rw [Nat.succ_mul] at hfit
  rw [Volume.clip, if_pos (by omega)]

/-! ## What is found -/

theorem findSlot_entry (h : findSlot buf c name i lfn = .hit info) : IsEntry buf i ∧ info = slotInfo buf c i lfn := by
  refine ⟨?_, (findSlot_hit buf h).1⟩
  rw [findSlot] at h
  split at h
  · cases h
  rename_i h1
  split at h
  · cases h
  rename_i h2
  split at h
  · cases h
  rename_i h3
  exact ⟨h1, h2, h3⟩

theorem findSlots_entry (h : findSlots buf c name n i lfn = .hit info) :
    info.dirCluster = c ∧ info.dirOffset < i + n ∧ IsEntry buf info.dirOffset ∧
      info.firstCluster = slotCluster buf info.dirOffset := by
  induction n generalizing i lfn with
  | zero => cases h
  | succ n ih =>
    rw [findSlots] at h
    split at h
    · obtain ⟨hc, hlt, hrest⟩ := ih h
      exact ⟨hc, by omega, hrest⟩
    · obtain ⟨hentry, rfl⟩ := findSlot_entry h
      exact ⟨rfl, by dsimp only [slotInfo]; omega, hentry, rfl⟩

/-- **What is found is an entry.** -/
theorem lookup_entry {slots : Nat} {d : Nat → Buf} {ds : List Nat} (h : lookup slots d name ds lfn = some info) :
    info.dirCluster ∈ ds ∧ info.dirOffset < slots ∧ IsEntry (d info.dirCluster) info.dirOffset ∧
      info.firstCluster = slotCluster (d info.dirCluster) info.dirOffset := by
  induction ds generalizing lfn with
  | nil => cases h
  | cons c ds ih =>
    rw [lookup] at h
    split at h
    · cases h
    · rename_i hslots
      cases h
      obtain ⟨rfl, hlt, hrest⟩ := findSlots_entry hslots
      exact ⟨List.mem_cons_self, by omega, hrest⟩
    · obtain ⟨hmem, hrest⟩ := ih h
      exact ⟨List.mem_cons_of_mem c hmem, hrest⟩

/-! ## Deleting and closing -/

theorem deletedBuf_other (h : i ≠ j) : SameSlot buf (deletedBuf buf i) j := by
  intro o ho
  rw [deletedBuf, setSlotField, put, write_outside]
  rw [dirEntrySize] at *
  omega

theorem deletedBuf_not_entry : ¬IsEntry (deletedBuf buf i) i := by
  intro h
  exact h.2.1 (get_put buf (i * dirEntrySize + 0) 1 0xE5)

theorem closeSlot_entry (fp : File) (now : Nat × Nat) : SameEntry buf (closeSlot buf fp now) i := by
  intro o ho
  rcases eq_or_ne i fp.dirOffset with rfl | hne
  · exact closeSlot_other (by omega)
  · have hij := slot_apart hne
    refine closeSlot_other ?_
    rw [dirEntrySize] at *
    omega

/-! ## Creating -/

/-- **Where a new entry is put**, all of the slots were free. -/
theorem findRun_free {nLfn : Nat} (h : findRun buf nLfn n i = some j) :
    i ≤ j ∧ j < i + n ∧ ∀ k ≤ nLfn, slotFree buf (j + k) = true := by
  induction n generalizing i with
  | zero => cases h
  | succ n ih =>
    rw [findRun] at h
    split at h
    · rename_i hall
      obtain rfl := Option.some.inj h
      exact ⟨Nat.le_refl i, by omega, fun k hk =>
        List.all_eq_true.1 hall k (List.mem_range.2 (Nat.lt_succ_of_le hk))⟩
    · obtain ⟨h1, h2, h3⟩ := ih h
      exact ⟨by omega, by omega, h3⟩

theorem place_free {nLfn slots : Nat} {d : Nat → Buf} {ds : List Nat} (h : place nLfn slots d ds = some (c, i)) :
    c ∈ ds ∧ i + nLfn < slots ∧ ∀ k ≤ nLfn, slotFree (d c) (i + k) = true := by
  induction ds with
  | nil => cases h
  | cons x ds ih =>
    rw [place] at h
    split at h
    · rename_i j hrun
      obtain ⟨rfl, rfl⟩ : x = c ∧ j = i := by simpa using h
      obtain ⟨-, hlt, hfree⟩ := findRun_free hrun
      exact ⟨List.mem_cons_self, by omega, hfree⟩
    · obtain ⟨hmem, hrest⟩ := ih h
      exact ⟨List.mem_cons_of_mem x hmem, hrest⟩

/-- The slots after the long-name entries have been put in theirs. -/
theorem putLfn_slot (es : List Buf) {o : Nat} (ho : o < dirEntrySize) : putLfn i es buf (j * dirEntrySize + o) =
      if i ≤ j ∧ j < i + es.length then es.getD (j - i) (fun _ => 0) o else buf (j * dirEntrySize + o) := by
  induction es generalizing i buf with
  | nil => rw [putLfn, if_neg (by rw [List.length_nil]; omega)]
  | cons e es ih =>
    rw [putLfn, ih, List.length_cons]
    rcases Nat.lt_trichotomy j i with hlt | rfl | hgt
    · have hij := Nat.mul_le_mul_right dirEntrySize (Nat.succ_le_of_lt hlt)
      rw [Nat.succ_mul] at hij
      rw [if_neg (by omega), if_neg (by omega), write_outside (by omega)]
    · rw [if_neg (by omega), if_pos (by omega), write_inside ho, Nat.sub_self, List.getD_cons_zero]
    · have hij := Nat.mul_le_mul_right dirEntrySize (Nat.succ_le_of_lt hgt)
      rw [Nat.succ_mul] at hij
      obtain ⟨k, hk⟩ : ∃ k, j - i = k + 1 := ⟨j - i - 1, by omega⟩
      rw [show j - (i + 1) = k by omega, hk, List.getD_cons_succ, write_outside (by omega)]
      by_cases hin : j < i + 1 + es.length
      · rw [if_pos ⟨hgt, hin⟩, if_pos (by omega)]
      · rw [if_neg (by omega), if_neg (by omega)]

theorem putEntry_other {attr new : Nat} {now : Nat × Nat} (h : i ≠ j) :
    SameSlot buf (putEntry buf i name attr new now) j := by
  intro o ho
  simp only [putEntry, setSlotField, put, fill]
  rw [dirEntrySize] at *
  rw [write_outside (by omega), write_outside (by omega), write_outside (by omega),
    write_outside (by omega), write_outside (by omega), write_outside (by omega),
    write_outside (by omega), write_outside (by omega), write_outside (by omega),
    write_outside (by omega)]

/-- What is not a character of a long-name entry is as it was before the characters were put in. -/
theorem encodeChunk_outside (chunk : List UInt8) (offset total : Nat) (sum : UInt8) {x : Nat}
    (hx : ∀ k < lfnChars, x < lfnCharPos k ∨ lfnCharPos k + 2 ≤ x) :
    wubuLfnEncodeChunk chunk offset total sum x =
      put (put (put (fun _ => 0) 0 1 (offset + 1 + if offset + 1 = total then 0x40 else 0)) 11 1 attrLfn)
        13 1 sum.toNat x := by
  have hfold : ∀ (l : List Nat) (e : Buf), (∀ k ∈ l, k < lfnChars) →
      l.foldl (fun e i => put e (lfnCharPos i) 2 (lfnChar chunk i)) e x = e x := by
    intro l
    induction l with
    | nil => exact fun _ _ => rfl
    | cons k l ih =>
      intro e hl
      rw [List.foldl_cons, ih _ fun k hk => hl k (List.mem_cons_of_mem _ hk)]
      exact write_outside (hx k (hl k List.mem_cons_self))
  exact hfold _ _ fun k hk => List.mem_range.1 hk

theorem encodeChunk_get (chunk : List UInt8) (offset total : Nat) (sum : UInt8) {x : Nat}
    (hx : ∀ k < lfnChars, x < lfnCharPos k ∨ lfnCharPos k + 2 ≤ x) :
    get (wubuLfnEncodeChunk chunk offset total sum) x 1 =
      get (put (put (put (fun _ => 0) 0 1 (offset + 1 + if offset + 1 = total then 0x40 else 0)) 11 1 attrLfn)
        13 1 sum.toNat) x 1 :=
  get_congr fun y h1 h2 => by rw [show y = x by omega]; exact encodeChunk_outside chunk offset total sum hx

theorem encodeChunk_attr (chunk : List UInt8) (offset total : Nat) (sum : UInt8) :
    get (wubuLfnEncodeChunk chunk offset total sum) 11 1 = attrLfn := by
  rw [encodeChunk_get _ _ _ _ (by decide), get_put_outside (by omega), get_put]
  rfl

theorem lfn_attr {e : Buf} (h : e ∈ wubuLfnBuildEntries name) : get e 11 1 = attrLfn := by
  rw [wubuLfnBuildEntries] at h
  split at h
  · cases h
  · split at h
    · obtain ⟨k, -, rfl⟩ := List.mem_map.1 h
      exact encodeChunk_attr ..
    · cases h

/-- **What creating an entry does to the slots of its cluster.** -/
structure PlacedSlots (buf buf' : Buf) (slots i nLfn new : Nat) : Prop where
  other : ∀ j < slots, j < i ∨ i + nLfn < j → SameSlot buf buf' j
  long : ∀ j, i ≤ j → j < i + nLfn → ¬IsEntry buf' j
  entry : slotCluster buf' (i + nLfn) = new

theorem placedBuf_slots {attr new : Nat} (now : Nat × Nat) (hnew : new < 2 ^ 32)
    (hi : i + (wubuLfnBuildEntries name).length < entriesPerCluster vol) :
    PlacedSlots buf (vol.clip (placedBuf buf name attr new i now)) (entriesPerCluster vol) i
      (wubuLfnBuildEntries name).length new := by
  refine ⟨fun j hj hout => ?_, fun j h1 h2 hentry => ?_, ?_⟩
  · refine SameSlot.trans (fun o ho => ?_) (clip_slot vol _ hj)
    rw [placedBuf, putEntry_other (by omega) o ho, putLfn_slot _ ho, if_neg (by omega)]
  · refine hentry.2.2 ?_
    rw [(clip_slot vol _ (by omega)).field (by decide), placedBuf, (putEntry_other (by omega)).field (by decide)]
    have hk : j - i < (wubuLfnBuildEntries name).length := by omega
    rw [← lfn_attr (List.getElem_mem hk), slotField]
    refine get_shift fun k hk' => ?_
    rw [Nat.add_assoc, putLfn_slot _ (by rw [dirEntrySize]; omega), if_pos ⟨h1, h2⟩, List.getD_eq_getElem _ _ hk]
  · rw [slotCluster, (clip_slot vol _ hi).field (by decide), (clip_slot vol _ hi).field (by decide),
      placedBuf, putEntry]
    generalize i + (wubuLfnBuildEntries name).length = j
    simp only [slotField, setSlotField]
    rw [get_put_outside (by omega), get_put_outside (by omega), get_put_outside (by omega),
      get_put_outside (by omega), get_put_outside (by omega), get_put, get_put_outside (by omega),
      get_put_outside (by omega), get_put_outside (by omega), get_put_outside (by omega),
      get_put_outside (by omega), get_put_outside (by omega), get_put]
    omega

end WuBuOS.Fat32
