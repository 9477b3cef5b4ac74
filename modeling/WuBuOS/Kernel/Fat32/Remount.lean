import WuBuOS.Kernel.Fat32.Mount
import WuBuOS.Kernel.Fat32.Reserved

/-!
# Mounting the device a second time

A device can be mounted into a second volume structure while the first one is still in use.  The boot
sector is the one the first volume was mounted from (`Booted`), so the second volume has the same shape
and the same clusters; but its table is the one on disk, `fs.diskTable`, which lacks what the first
volume has only in its cache (`remount`).
-/

namespace WuBuOS.Fat32

open Bytes

variable {fs fs' m : Fs} {nSectors c : Nat} {buf : Buf}

/-- The boot sector on disk is one that the volume could have been mounted from. -/
structure Booted (nSectors : Nat) (fs : Fs) : Prop where
  valid : (bootSector (sectors fs.disk 0 1)).valid = true
  shape : SameShape (described nSectors fs.disk) fs.vol
  reserved : 0 < fs.vol.fat1Lba

/-- What `fat32_mount` takes from a boot sector does not depend on its flags, but for the flag it returns. -/
theorem bootSector_flags (v : Nat) (buf : Buf) :
    bootSector (put buf 40 2 v) = { bootSector buf with fatFlags := v % 2 ^ 16 } := by
  have hout : ∀ a n, a + n ≤ 40 ∨ 42 ≤ a → get (put buf 40 2 v) a n = get buf a n := fun a n h =>
    get_put_outside (by omega)
  have hin : get (put buf 40 2 v) 40 2 = v % 2 ^ 16 := by
    rw [get_put, show 256 ^ 2 = 2 ^ 16 by decide]
  simp only [bootSector, hout 11 2 (by omega), hout 13 1 (by omega), hout 14 2 (by omega),
    hout 16 1 (by omega), hout 36 4 (by omega), hin, hout 44 4 (by omega), hout 48 2 (by omega),
    hout 510 2 (by omega)]

/-- **The boot sector stays as long as nothing is written before the table.** -/
theorem Booted.of_spares (h : Booted nSectors fs) (hs : Spares fs fs') : Booted nSectors fs' := by
  have hboot : sectors fs'.disk 0 1 = sectors fs.disk 0 1 := by
    funext x
    rw [sectors, sectors]
    split
    · refine hs.before _ ?_
      have hle := Nat.mul_le_mul_right sectorSize (Nat.succ_le_of_lt h.reserved)
      omega
    · rfl
  have hdes : described nSectors fs'.disk = described nSectors fs.disk := by
    rw [described, described, hboot]
  exact ⟨by rw [hboot]; exact h.valid, by rw [hdes]; exact h.shape.trans hs.shape,
    by rw [hs.shape.fat1Lba]; exact h.reserved⟩

/-- The table in its first copy on disk, as `fat_read_entry` would return it. -/
def Fs.diskTable (fs : Fs) (c : Nat) : Nat :=
  if c / entriesPerSector < fs.vol.sectorsPerFat then low28 (tableEntry fs.disk fs.vol.fat1Lba c) else 0

/-- The entry on disk is the one the volume has. -/
def OnDisk (fs : Fs) (c : Nat) : Prop := fs.diskTable c = fs.table c

/-! ## The second volume -/

theorem SameShape.symm {v v' : Volume} (h : SameShape v v') : SameShape v' v := by
  constructor
  · exact h.1.symm
  · exact h.2.symm
  · exact h.3.symm
  · exact h.4.symm
  · exact h.5.symm
  · exact h.6.symm
  · exact h.7.symm
  · exact h.8.symm
  · exact h.9.symm
  · exact h.10.symm

/-- The boot sector after a volume has been mounted: at most its flags have changed. -/
theorem markInUse_boot (he : NoErrors fs) : ∃ v, bootSector (sectors (markInUse (sectors fs.disk 0 1) fs).disk 0 1) =
      { bootSector (sectors fs.disk 0 1) with fatFlags := v } := by
  rw [markInUse]
  split
  · exact ⟨_, rfl⟩
  · generalize hv : (bootSector (sectors fs.disk 0 1)).fatFlags ||| 0x80 = v
    refine ⟨v % 2 ^ 16, ?_⟩
    rw [← bootSector_flags, blkWrite, if_pos (show fs.ask.1.ok = true from he 0)]
    congr 1
    funext x
    rw [sectors]
    split
    · rename_i hx
      exact write_inside hx
    · rename_i hx
      rw [put, write_outside (by rw [sectorSize] at hx; omega), sectors, if_neg hx]

/-- **A volume that has been mounted could be mounted again.** -/
theorem booted_of_mount (h : fat32Mount nSectors fs = (true, m)) (he : NoErrors fs)
    (hreserved : 0 < m.vol.fat1Lba) : Booted nSectors m := by
  have hm := mounted_of_mount h
  obtain ⟨hvalid, rfl⟩ := fat32Mount_inv h
  obtain ⟨-, hdisk, -⟩ := readFsInfo_shape (bootSector (sectors fs.disk 0 1)).fsInfoSector
    (markInUse (sectors fs.disk 0 1) (populated nSectors fs))
  obtain ⟨v, hv⟩ := @markInUse_boot (populated nSectors fs) fun n => he (n + 1)
  refine ⟨?_, ?_, hreserved⟩
  · rw [hdisk]
    exact (congrArg BootSector.valid hv).trans hvalid
  · refine SameShape.trans ?_ hm.shape
    have hboot : bootSector (sectors (readFsInfo (bootSector (sectors fs.disk 0 1)).fsInfoSector
        (markInUse (sectors fs.disk 0 1) (populated nSectors fs))).disk 0 1) =
        { bootSector (sectors fs.disk 0 1) with fatFlags := v } := by
      rw [hdisk]
      exact hv
    rw [described, described, hboot]
    constructor <;> rfl

theorem Sound.ordered (h : Sound fs) : Ordered fs.vol where
  fat2 := by
    rw [h.consistent.fat2]
    exact Nat.le_add_right ..
  data := by
    rw [h.dataLba, h.consistent.fat2, Nat.add_assoc]
    exact Nat.le_add_right ..

theorem Sound.table_size (h : Sound fs) (htot : 2 < fs.vol.totalClusters) :
    fs.vol.totalClusters ≤ fs.vol.sectorsPerFat * entriesPerSector := by
  have hlast := h.table (fs.vol.totalClusters - 1) ⟨by omega, by omega⟩
  have := (Nat.div_lt_iff_lt_mul (by decide)).1
    (show (fs.vol.totalClusters - 1) / entriesPerSector < fs.vol.sectorsPerFat from hlast)
  omega

/-- **The volume mounted a second time** has the same clusters, and the table that is on disk. -/
theorem remount (hb : Booted nSectors fs) (hs : Sound fs) (htot : 2 < fs.vol.totalClusters) :
    ∃ m, fat32Mount nSectors fs = (true, m) ∧ Sound m ∧ SameShape fs.vol m.vol ∧
      m.table = fs.diskTable ∧ m.data = fs.data := by
  have hmount := fat32Mount_eq nSectors fs
  rw [if_pos ⟨hs.noErrors 0, hb.valid⟩] at hmount
  generalize readFsInfo _ _ = m at hmount
  have hm := mounted_of_mount hmount
  have hshape := hb.shape.symm.trans hm.shape
  have hsound : Sound m := sound_of_mount hmount hs.noErrors
    (by rw [hshape.totalClusters, hshape.sectorsPerFat]; exact hs.table_size htot)
    (by rw [hshape.totalClusters]; exact hs.clusters)
  have hfat1 := Nat.mul_le_mul_right sectorSize (Nat.succ_le_of_lt hb.reserved)
  rw [Nat.succ_mul, Nat.zero_mul, Nat.zero_add] at hfat1
  refine ⟨m, hmount, hsound, hshape, ?_, ?_⟩
  · funext c
    rw [Fs.table, Fs.diskTable, hshape.sectorsPerFat, (fresh_of_mount hmount).entry, hshape.fat1Lba]
    split
    · congr 1
      refine get_congr fun x hx _ => hm.disk x (hfat1.trans ?_)
      exact (Nat.mul_le_mul_right _ (Nat.le_add_right ..)).trans ((Nat.le_add_right ..).trans hx)
    · rfl
  · funext c i
    rw [Fs.data, Fs.data, hshape.clusterToLba, hshape.sectorsPerCluster]
    split
    · rename_i hc
      rw [sectors, sectors]
      split
      · refine hm.disk _ ?_
        have hfat2 : fs.vol.fat1Lba ≤ fs.vol.fat2Lba + fs.vol.sectorsPerFat := by
          rw [hs.consistent.fat2]
          omega
        have hdata := (Nat.mul_le_mul_right sectorSize hfat2).trans (hs.data_outside hc)
        omega
      · rfl
    · rfl

end WuBuOS.Fat32
