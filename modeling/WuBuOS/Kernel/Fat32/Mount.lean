import WuBuOS.Kernel.Fat32.Chain

/-!
# Volumes that have been mounted

What `fat32_mount` makes of a disk: the shape of the volume is the one the boot sector describes, the
cache is empty, and of the disk nothing has changed but the flag in the boot sector (`Mounted`).  If
the table has an entry for every cluster and no request fails, the volume is `Sound`.
-/

namespace WuBuOS.Fat32

open Bytes

variable {fs m : Fs} {nSectors : Nat}

/-- The volume that the boot sector of a disk describes. -/
def described (nSectors : Nat) (disk : Buf) : Volume :=
  populate (fatCacheInvalidate { zeroVolume with nSectors := nSectors })
    (bootSector (sectors disk 0 1))

/-- **A volume has been mounted.** -/
structure Mounted (nSectors : Nat) (fs m : Fs) : Prop where
  valid : (bootSector (sectors fs.disk 0 1)).valid = true
  shape : SameShape (described nSectors fs.disk) m.vol
  disk : ∀ x, sectorSize ≤ x → m.disk x = fs.disk x
  env : Later fs.env m.env

theorem markInUse_shape (buf : Buf) (fs : Fs) :
    (markInUse buf fs).vol = fs.vol ∧ (∀ x, sectorSize ≤ x → (markInUse buf fs).disk x = fs.disk x) ∧
      Later fs.env (markInUse buf fs).env := by
  rw [markInUse]
  split
  · exact ⟨rfl, fun _ _ => rfl, .refl _⟩
  · exact ⟨rfl, fun x hx => write_outside (Or.inr (by omega)), 1, fun _ => rfl⟩

theorem readFsInfo_shape (s : Nat) (fs : Fs) :
    SameShape fs.vol (readFsInfo s fs).vol ∧ (readFsInfo s fs).disk = fs.disk ∧ Later fs.env (readFsInfo s fs).env := by
  rw [readFsInfo]
  split
  · rw [blkRead]
    cases fs.ask.1.ok with
    | true =>
      refine ⟨?_, rfl, 1, fun _ => rfl⟩
      show SameShape fs.vol (fsInfoCounts fs.vol _)
      rw [fsInfoCounts]
      split
      · constructor <;> rfl
      · exact .refl _
    | false => exact ⟨.refl _, rfl, 1, fun _ => rfl⟩
  · exact ⟨.refl _, rfl, .refl _⟩

/-- The volume as it is before anything is written to the disk. -/
def populated (nSectors : Nat) (fs : Fs) : Fs := { fs.ask.2 with vol := described nSectors fs.disk }

/-- **What mounting does.** -/
theorem fat32Mount_eq (nSectors : Nat) (fs : Fs) : fat32Mount nSectors fs =
      if fs.ask.1.ok = true ∧ (bootSector (sectors fs.disk 0 1)).valid = true then
        (true, readFsInfo (bootSector (sectors fs.disk 0 1)).fsInfoSector
          (markInUse (sectors fs.disk 0 1) (populated nSectors fs)))
      else
        (false, { fs.ask.2 with
          vol := fatCacheInvalidate { zeroVolume with nSectors := nSectors } }) := by
  have hread : ∀ vol, blkRead 0 1 { fs with vol := vol } =
      (if fs.ask.1.ok = true then some (sectors fs.disk 0 1) else none, { fs.ask.2 with vol := vol }) := fun _ => rfl
  rw [fat32Mount, hread]
  by_cases hok : fs.ask.1.ok = true
  · simp only [hok, true_and]
    rfl
  · simp only [hok]
    rfl

theorem fat32Mount_inv (h : fat32Mount nSectors fs = (true, m)) : (bootSector (sectors fs.disk 0 1)).valid = true ∧
      m = readFsInfo (bootSector (sectors fs.disk 0 1)).fsInfoSector
        (markInUse (sectors fs.disk 0 1) (populated nSectors fs)) := by
  rw [fat32Mount_eq] at h
  split at h
  · rename_i hok
    exact ⟨hok.2, (Prod.mk.inj h).2.symm⟩
  · exact Bool.noConfusion (Prod.mk.inj h).1

theorem mounted_of_mount (h : fat32Mount nSectors fs = (true, m)) : Mounted nSectors fs m := by
  obtain ⟨hvalid, rfl⟩ := fat32Mount_inv h
  obtain ⟨hv, hd, he⟩ := markInUse_shape (sectors fs.disk 0 1) (populated nSectors fs)
  obtain ⟨hv', hd', he'⟩ := readFsInfo_shape (bootSector (sectors fs.disk 0 1)).fsInfoSector
    (markInUse (sectors fs.disk 0 1) (populated nSectors fs))
  rw [hv] at hv'
  refine ⟨hvalid, hv', fun x hx => ?_, (Later.trans ⟨1, fun _ => rfl⟩ he).trans he'⟩
  rw [hd', hd x hx]
  rfl

/-- **A mounted volume can be relied on** if its table has an entry for every cluster. -/
theorem sound_of_mount (h : fat32Mount nSectors fs = (true, m)) (he : NoErrors fs)
    (htable : m.vol.totalClusters ≤ m.vol.sectorsPerFat * entriesPerSector)
    (hcl : m.vol.totalClusters ≤ clusterEoc) : Sound m := by
  have hm := mounted_of_mount h
  refine ⟨(fresh_of_mount h).consistent, he.later hm.env, ?_, ?_, ?_, fun c hc => ?_, hcl⟩
  · rw [hm.shape.dataLba, hm.shape.fat2Lba, hm.shape.sectorsPerFat]
    rfl
  · rw [hm.shape.bytesPerCluster, hm.shape.sectorsPerCluster]
    rfl
  · rw [hm.shape.sectorsPerCluster]
    have hv := hm.valid
    simp only [BootSector.valid, Bool.and_eq_true, bne_iff_ne] at hv
    exact Nat.pos_of_ne_zero hv.1.1.2
  · exact Nat.div_lt_of_lt_mul (Nat.mul_comm _ _ ▸ hc.2.trans_le htable)

/-- A device of 100 sectors is small enough. -/
theorem sound_of_hundred (h : fat32Mount nSectors fs = (true, m)) (he : NoErrors fs)
    (hsmall : m.vol.totalClusters = 99 ∧ m.vol.sectorsPerFat = 1) : Sound m :=
  sound_of_mount h he (by rw [hsmall.1, hsmall.2]; decide) (by rw [hsmall.1]; decide)

/-- A cluster with an end-of-chain mark is a chain. -/
theorem Chain.singleton {vol : Volume} {t : Nat → Nat} {c : Nat} (hc : InVolume vol c)
    (ht : clusterEoc ≤ t c) : Chain vol t c [c] where
  list := ⟨rfl, Nat.ne_of_gt (Nat.zero_lt_of_lt (Nat.lt_of_succ_le hc.1)), by
    rw [nextOf, if_pos ht]
    rfl⟩
  inVolume := fun x hx => by
    rw [List.mem_singleton.1 hx]
    exact hc
  used := fun x hx => by
    rw [List.mem_singleton.1 hx]
    exact Nat.ne_of_gt (Nat.lt_of_lt_of_le (by decide) ht)

end WuBuOS.Fat32
