import WuBuOS.Kernel.Fat32.Mount

/-!
# Volumes that have been formatted

`fat32_format` of `kernel/fat32_format.c`.  It writes the boot sector twice, zeros to both copies of the
table, their first sectors, the FSInfo sector and zeros to the root directory, and returns at the first
write that fails.

A volume that has been formatted can be mounted, if no request fails, and if the device has room for a
root directory and no more clusters than the 28 bits of an entry can number.  Its root directory is a
chain of one cluster that is all zero (`mounted_of_format`).
-/

namespace WuBuOS.Fat32

open Bytes

variable {fs f m : Fs} {l l' : List (Nat × Buf)} {d : Buf} {lba n o : Nat} {name : Option (List UInt8)}

/-! ## The function -/

/-- The sectors of a cluster, by the size of the volume. -/
def formatSectorsPerCluster (sectorCount : Nat) : Nat :=
  let totalKb := sectorCount / 2
  if totalKb ≤ 244000 then 1
  else if totalKb ≤ 976000 then 2
  else if totalKb ≤ 3056000 then 4
  else if totalKb ≤ 6112000 then 8
  else if totalKb ≤ 16777000 then 16
  else if totalKb ≤ 33554000 then 32
  else 64

/-- The clusters there are, as if there were no table. -/
def formatClusters (sectorCount : Nat) : Nat :=
  (sectorCount + 2 ^ 64 - 32) % 2 ^ 64 / formatSectorsPerCluster sectorCount % 2 ^ 32

/-- The sectors of each copy of the table. -/
def formatSectorsPerFat (sectorCount : Nat) : Nat :=
  ((formatClusters sectorCount * 4 + sectorSize - 1) % 2 ^ 32 / sectorSize + 1) % 2 ^ 32

/-- The `volume_label`. -/
def volumeLabel : Option (List UInt8) → List UInt8
  | some name => padTo 11 (name.take 11)
  | none => padTo 11 [78, 79, blank, 78, 65, 77, 69]

/-- The boot sector. -/
def formatBoot (sectorCount : Nat) (volName : Option (List UInt8)) (time : Nat) : Buf :=
  let bs := put (put (put (fun _ => 0) 0 1 0xEB) 1 1 0x58) 2 1 0x90
  let bs := write bs 3 8 fun k => [77, 83, 87, 73, 78, 52, 46, 49].getD k 0
  let bs := put (put bs 11 2 sectorSize) 13 1 (formatSectorsPerCluster sectorCount)
  let bs := put (put (put bs 14 2 32) 16 1 2) 21 1 0xF8
  let bs := put (put bs 32 4 (sectorCount % 2 ^ 32)) 36 4 (formatSectorsPerFat sectorCount)
  let bs := put (put (put bs 44 4 2) 48 2 1) 50 2 6
  let bs := put (put (put bs 64 1 0x80) 66 1 0x29) 67 4 time
  let bs := write bs 71 11 fun k => (volumeLabel volName).getD k 0
  let bs := write bs 82 8 fun k => [70, 65, 84, 51, 50, blank, blank, blank].getD k 0
  put bs 510 2 0xAA55

/-- The first sector of the table: the two reserved entries, and the root directory. -/
def fatInit : Buf := put (put (put (fun _ => 0) 0 4 0x0FFFFFF8) 4 4 0x0FFFFFFF) 8 4 0x0FFFFFFF

/-- The FSInfo sector. -/
def formatFsInfo (sectorCount : Nat) : Buf :=
  let buf := put (put (fun _ => 0) 0 4 0x41615252) 484 4 0x61417272
  put (put (put buf 488 4 (formatClusters sectorCount + 2 ^ 32 - 1)) 492 4 3) 508 4 0xAA550000

/-- Zeros for `n` sectors. -/
def zeroSectors (lba n : Nat) : List (Nat × Buf) := (List.range n).map fun i => (lba + i, fun _ => 0)

/-- What is written, sector by sector. -/
def formatSectors (sectorCount : Nat) (volName : Option (List UInt8)) (time : Nat) :
    List (Nat × Buf) :=
  let bs := formatBoot sectorCount volName time
  let sectorsPerFat := formatSectorsPerFat sectorCount
  [(0, bs), (6, bs)] ++ zeroSectors 32 (2 * sectorsPerFat) ++
    [(32, fatInit), (32 + sectorsPerFat, fatInit), (1, formatFsInfo sectorCount)] ++
    zeroSectors (32 + 2 * sectorsPerFat) (formatSectorsPerCluster sectorCount)

/-- Write sectors, up to the first write that fails. -/
def writeSectors : List (Nat × Buf) → Fs → Bool × Fs
  | [], fs => (true, fs)
  | (lba, buf) :: l, fs =>
    match blkWrite lba 1 buf fs with
    | (false, fs) => (false, fs)
    | (true, fs) => writeSectors l fs

/-- `fat32_format`; whether it returns `0`. -/
def fat32Format (sectorCount : Nat) (volName : Option (List UInt8)) (fs : Fs) : Bool × Fs :=
  writeSectors (formatSectors sectorCount volName (get fs.ask.1.junk 0 4)) fs.ask.2

/-! ## What is on the disk -/

/-- A disk after sectors have been written to it. -/
def stored : List (Nat × Buf) → Buf → Buf
  | [], d => d
  | (lba, buf) :: l, d => stored l (write d (lba * sectorSize) (1 * sectorSize) buf)

theorem stored_append : stored (l ++ l') d = stored l' (stored l d) := by
  induction l generalizing d with
  | nil => rfl
  | cons p l ih => exact ih

/-- Whether a place is in a sector. -/
theorem sector_inj {x : Nat} (ho : o < sectorSize) : (lba * sectorSize ≤ x * sectorSize + o ∧
      x * sectorSize + o < lba * sectorSize + 1 * sectorSize) ↔ lba = x := by
  simp only [sectorSize] at *
  omega

/-- A sector that is not written stays as it is. -/
theorem stored_other {x : Nat} (h : ∀ p ∈ l, p.1 ≠ x) (ho : o < sectorSize) :
    stored l d (x * sectorSize + o) = d (x * sectorSize + o) := by
  induction l generalizing d with
  | nil => rfl
  | cons p l ih =>
    refine (ih fun q hq => h q (List.mem_cons_of_mem p hq)).trans ?_
    rw [write, if_neg ((sector_inj ho).not.2 (h p List.mem_cons_self))]

/-- A sector that is written once more, and then no more. -/
theorem stored_last {x : Nat} {buf : Buf} (h : ∀ p ∈ l, p.1 ≠ x) (ho : o < sectorSize) :
    stored ((x, buf) :: l) d (x * sectorSize + o) = buf o := by
  refine (stored_other h ho).trans ?_
  rw [write, if_pos ((sector_inj ho).2 rfl), Nat.add_sub_cancel_left]

/-- Sectors that are all written with the same at some place: what they hold there. -/
theorem stored_const {x : Nat} {b : UInt8} (h : ∀ p ∈ l, p.2 o = b) (ho : o < sectorSize)
    (hx : (∃ p ∈ l, p.1 = x) ∨ d (x * sectorSize + o) = b) : stored l d (x * sectorSize + o) = b := by
  induction l generalizing d with
  | nil => exact hx.resolve_left fun ⟨p, hp, _⟩ => List.not_mem_nil hp
  | cons p l ih =>
    refine ih (fun q hq => h q (List.mem_cons_of_mem p hq)) ?_
    rcases eq_or_ne p.1 x with rfl | hne
    · refine Or.inr ?_
      rw [write, if_pos ((sector_inj ho).2 rfl), Nat.add_sub_cancel_left]
      exact h p List.mem_cons_self
    · rw [write, if_neg ((sector_inj ho).not.2 hne)]
      refine hx.imp_left ?_
      rintro ⟨q, hq, hqx⟩
      refine ⟨q, (List.mem_cons.1 hq).resolve_left ?_, hqx⟩
      rintro rfl
      exact hne hqx

theorem mem_zeroSectors {p : Nat × Buf} (h : p ∈ zeroSectors lba n) : lba ≤ p.1 ∧ p.1 < lba + n ∧ p.2 = fun _ => 0 := by
  obtain ⟨i, hi, rfl⟩ := List.mem_map.1 h
  exact ⟨Nat.le_add_right lba i, Nat.add_lt_add_left (List.mem_range.1 hi) lba, rfl⟩

/-- A sector among those that zeros are written to. -/
theorem stored_zero {x : Nat} (h : lba ≤ x) (hx : x < lba + n) (ho : o < sectorSize) :
    stored (zeroSectors lba n) d (x * sectorSize + o) = 0 := by
  refine stored_const (fun p hp => ?_) ho (Or.inl ⟨(x, fun _ => 0), ?_, rfl⟩)
  · rw [(mem_zeroSectors hp).2.2]
  · exact List.mem_map.2 ⟨x - lba, List.mem_range.2 (by omega), by rw [Nat.add_sub_cancel' h]⟩

/-- As long as no write fails, all of the sectors are written. -/
theorem writeSectors_ok (he : NoErrors fs) : ∃ env, Later fs.env env ∧
    writeSectors l fs = (true, ⟨fs.vol, stored l fs.disk, env⟩) := by
  induction l generalizing fs with
  | nil => exact ⟨fs.env, .refl _, rfl⟩
  | cons p l ih =>
    have hok : fs.ask.1.ok = true := he 0
    have hw : blkWrite p.1 1 p.2 fs =
        (true, ⟨fs.vol, write fs.disk (p.1 * sectorSize) (1 * sectorSize) p.2, fs.ask.2.env⟩) := by
      rw [blkWrite, hok, if_pos rfl]
      rfl
    obtain ⟨env, hl, hrest⟩ := @ih ⟨fs.vol, write fs.disk (p.1 * sectorSize) (1 * sectorSize) p.2,
      fs.ask.2.env⟩ fun n => he (n + 1)
    refine ⟨env, Later.trans ⟨1, fun _ => rfl⟩ hl, ?_⟩
    rw [writeSectors, hw]
    exact hrest

/-- What is on a disk that has been formatted. -/
structure Formatted (sectorCount : Nat) (disk : Buf) : Prop where
  boot : ∃ volName time, ∀ o < sectorSize,
    disk (0 * sectorSize + o) = formatBoot sectorCount volName time o
  table : ∀ o < sectorSize, disk (32 * sectorSize + o) = fatInit o
  rest : ∀ x, 32 < x → x < 32 + formatSectorsPerFat sectorCount → ∀ o < sectorSize,
    disk (x * sectorSize + o) = 0
  root : ∀ x, 32 + 2 * formatSectorsPerFat sectorCount ≤ x →
    x < 32 + 2 * formatSectorsPerFat sectorCount + formatSectorsPerCluster sectorCount →
      ∀ o < sectorSize, disk (x * sectorSize + o) = 0

theorem stored_format {sectorCount time : Nat} (hfat : 0 < formatSectorsPerFat sectorCount) :
    Formatted sectorCount (stored (formatSectors sectorCount name time) d) := by
  rw [formatSectors, stored_append, stored_append, stored_append]
  have hroot : ∀ {x d o}, x < 32 + 2 * formatSectorsPerFat sectorCount → o < sectorSize →
      stored (zeroSectors (32 + 2 * formatSectorsPerFat sectorCount)
        (formatSectorsPerCluster sectorCount)) d (x * sectorSize + o) = d (x * sectorSize + o) :=
    fun hx ho => stored_other (fun p hp heq => by have := (mem_zeroSectors hp).1; omega) ho
  have hzero : ∀ {x d o}, x < 32 → o < sectorSize →
      stored (zeroSectors 32 (2 * formatSectorsPerFat sectorCount)) d (x * sectorSize + o) = d (x * sectorSize + o) :=
    fun hx ho => stored_other (fun p hp heq => by have := (mem_zeroSectors hp).1; omega) ho
  have hmid : ∀ {x : Nat}, 32 ≠ x → 32 + formatSectorsPerFat sectorCount ≠ x → 1 ≠ x →
      ∀ p ∈ [(32, fatInit), (32 + formatSectorsPerFat sectorCount, fatInit),
        (1, formatFsInfo sectorCount)], p.1 ≠ x := fun h1 h2 h3 =>
    List.forall_mem_cons.2 ⟨h1, List.forall_mem_cons.2 ⟨h2, List.forall_mem_singleton.2 h3⟩⟩
  refine ⟨⟨name, time, fun o ho => ?_⟩, fun o ho => ?_, fun x hx hlt o ho => ?_, fun x hx hlt o ho => ?_⟩
  · rw [hroot (by omega) ho, stored_other (hmid (by omega) (by omega) (by omega)) ho, hzero (by omega) ho]
    exact stored_last (List.forall_mem_singleton.2 (show 6 ≠ 0 by decide)) ho
  · rw [hroot (by omega) ho]
    refine stored_last (List.forall_mem_cons.2 ⟨?_, List.forall_mem_singleton.2 (show 1 ≠ 32 by decide)⟩) ho
    exact (Nat.lt_add_of_pos_right hfat).ne'
  · rw [hroot (by omega) ho, stored_other (hmid (by omega) (by omega) (by omega)) ho]
    exact stored_zero (by omega) (by omega) ho
  · exact stored_zero hx hlt ho

/-! ## Mounting it -/

/-- **How a device of `n` sectors is divided**: there is a cluster for the root directory, the table has an
entry for every cluster, and an entry can number them all. -/
structure Divided (n : Nat) : Prop where
  sectorsPerCluster : 0 < formatSectorsPerCluster n ∧ formatSectorsPerCluster n < 256
  sectorsPerFat : 0 < formatSectorsPerFat n ∧ formatSectorsPerFat n < 2 ^ 32
  root : 32 + 2 * formatSectorsPerFat n + formatSectorsPerCluster n ≤ n
  table : (n - (32 + 2 * formatSectorsPerFat n)) / formatSectorsPerCluster n + 2 ≤
    formatSectorsPerFat n * entriesPerSector
  clusters : (n - (32 + 2 * formatSectorsPerFat n)) / formatSectorsPerCluster n + 2 ≤ clusterEoc

/-- The sizes of clusters, and how large a volume is that has them. -/
theorem formatSectorsPerCluster_cases (hlt : n < 2 ^ 34) :
    ∃ s ∈ [1, 2, 4, 8, 16, 32, 64], formatSectorsPerCluster n = s ∧ n < s * 2 ^ 28 ∧ (s ≠ 1 → 488000 < n) := by
  rw [formatSectorsPerCluster]
  split_ifs
  · exact ⟨1, by simp, rfl, by omega, by omega⟩
  · exact ⟨2, by simp, rfl, by omega, by omega⟩
  · exact ⟨4, by simp, rfl, by omega, by omega⟩
  · exact ⟨8, by simp, rfl, by omega, by omega⟩
  · exact ⟨16, by simp, rfl, by omega, by omega⟩
  · exact ⟨32, by simp, rfl, by omega, by omega⟩
  · exact ⟨64, by simp, rfl, by omega, by omega⟩

theorem formatClusters_eq (hn : 32 ≤ n) (hlt : n < 2 ^ 34) : formatClusters n = (n - 32) / formatSectorsPerCluster n ∧
      (n - 32) / formatSectorsPerCluster n < 2 ^ 28 := by
  obtain ⟨s, -, hsize, hns, -⟩ := formatSectorsPerCluster_cases hlt
  have hlt' : (n - 32) / s < 2 ^ 28 := Nat.div_lt_of_lt_mul (by omega)
  rw [hsize]
  refine ⟨?_, hlt'⟩
  rw [formatClusters, hsize, show (n + 2 ^ 64 - 32) % 2 ^ 64 = n - 32 by omega,
    Nat.mod_eq_of_lt (hlt'.trans (by decide))]

theorem formatSectorsPerFat_eq (hn : 32 ≤ n) (hlt : n < 2 ^ 34) :
    formatSectorsPerFat n = ((n - 32) / formatSectorsPerCluster n * 4 + 511) / 512 + 1 := by
  obtain ⟨hc, hlt'⟩ := formatClusters_eq hn hlt
  rw [formatSectorsPerFat, hc]
  generalize (n - 32) / formatSectorsPerCluster n = k at hlt'
  simp only [sectorSize]
  omega

theorem divided (hn : 37 ≤ n) (hlt : n < 2 ^ 34) : Divided n := by
  obtain ⟨s, hs, hsize, hns, hn1⟩ := formatSectorsPerCluster_cases hlt
  have hs0 : ∀ s ∈ [1, 2, 4, 8, 16, 32, 64], 0 < s ∧ s < 256 := by decide
  have hfat := formatSectorsPerFat_eq (show 32 ≤ n by omega) hlt
  have hsmall := (formatClusters_eq (show 32 ≤ n by omega) hlt).2
  rw [hsize] at hfat hsmall
  have hs' : s = 1 ∨ s = 2 ∨ s = 4 ∨ s = 8 ∨ s = 16 ∨ s = 32 ∨ s = 64 := by simpa using hs
  constructor
  · rw [hsize]
    exact hs0 s hs
  · rw [hfat]
    omega
  · rw [hfat, hsize]
    rcases hs' with rfl | rfl | rfl | rfl | rfl | rfl | rfl <;> omega
  · rw [hfat, hsize, show entriesPerSector = 128 from rfl]
    rcases hs' with rfl | rfl | rfl | rfl | rfl | rfl | rfl <;> omega
  · rw [hfat, hsize, clusterEoc]
    rcases hs' with rfl | rfl | rfl | rfl | rfl | rfl | rfl <;> omega

/-- What `fat32_mount` reads of a boot sector that `fat32_format` has written. -/
theorem Formatted.bootSector (h : Formatted n d) (hd : Divided n) : bootSector (sectors d 0 1) =
      ⟨sectorSize, formatSectorsPerCluster n, 32, 2, formatSectorsPerFat n, 0, 2, 1, 0xAA55⟩ := by
  obtain ⟨volName, time, hboot⟩ := h.boot
  have hget : ∀ a k, a + k ≤ sectorSize → get (sectors d 0 1) a k = get (formatBoot n volName time) a k := by
    intro a k hk
    refine get_congr fun x _ hx => ?_
    rw [sectors, if_pos (by omega)]
    exact hboot x (by omega)
  rw [Fat32.bootSector, hget _ _ (by decide), hget _ _ (by decide), hget _ _ (by decide),
    hget _ _ (by decide), hget _ _ (by decide), hget _ _ (by decide), hget _ _ (by decide),
    hget _ _ (by decide), hget _ _ (by decide)]
  simp (disch := omega) only [formatBoot, get_put_outside, get_write_outside, get_put]
  rw [Nat.mod_eq_of_lt (show formatSectorsPerCluster n < 256 ^ 1 from hd.sectorsPerCluster.2),
    Nat.mod_eq_of_lt (hd.sectorsPerFat.2.trans_eq (by decide))]
  rfl

/-- **A volume with an empty root directory** of one cluster. -/
structure Empty (m : Fs) : Prop where
  sound : Sound m
  mounted : m.vol.mounted = true
  chain : Chain m.vol m.table m.vol.rootCluster [m.vol.rootCluster]
  data : m.data m.vol.rootCluster = fun _ => 0

/-- How many clusters the volume has. -/
theorem Formatted.totalClusters (h : Formatted n f.disk) (hd : Divided n) (hlt : n < 2 ^ 34)
    (hm : fat32Mount n f = (true, m)) : m.vol.totalClusters =
      (n - (32 + 2 * formatSectorsPerFat n)) / formatSectorsPerCluster n + 2 := by
  have hvol := (mounted_of_mount hm).shape
  rw [described, h.bootSector hd] at hvol
  have hfits := hd.root
  have hle := hd.clusters
  rw [clusterEoc] at hle
  have hlba : (n + 2 ^ 64 - (32 + formatSectorsPerFat n + formatSectorsPerFat n)) % 2 ^ 64 =
      n - (32 + 2 * formatSectorsPerFat n) := by omega
  refine hvol.totalClusters.trans ?_
  show ((n + 2 ^ 64 - (32 + formatSectorsPerFat n + formatSectorsPerFat n)) % 2 ^ 64 /
    formatSectorsPerCluster n % 2 ^ 32 + 2) % 2 ^ 32 = _
  rw [hlba]
  generalize (n - (32 + 2 * formatSectorsPerFat n)) / formatSectorsPerCluster n = k at hle ⊢
  omega

/-- **A volume that has been formatted and mounted** is empty. -/
theorem Formatted.empty (h : Formatted n f.disk) (he : NoErrors f) (hd : Divided n) (hlt : n < 2 ^ 34)
    (hm : fat32Mount n f = (true, m)) : Empty m := by
  have hmounted := mounted_of_mount hm
  have hvol := hmounted.shape
  rw [described, h.bootSector hd] at hvol
  have hspc : m.vol.sectorsPerCluster = formatSectorsPerCluster n := hvol.sectorsPerCluster
  have hfat : m.vol.sectorsPerFat = formatSectorsPerFat n := hvol.sectorsPerFat
  have hfat1 : m.vol.fat1Lba = 32 := hvol.fat1Lba
  have hroot : m.vol.rootCluster = 2 := hvol.rootCluster
  have hdata : m.vol.dataLba = 32 + 2 * formatSectorsPerFat n := by
    rw [Nat.two_mul, ← Nat.add_assoc]
    exact hvol.dataLba
  have hfits := hd.root
  have htot := h.totalClusters hd hlt hm
  have hin : InVolume m.vol 2 := by
    refine ⟨Nat.le_refl 2, ?_⟩
    rw [htot]
    have := Nat.div_pos (show formatSectorsPerCluster n ≤ n - (32 + 2 * formatSectorsPerFat n) by omega)
      hd.sectorsPerCluster.1
    omega
  have hsound : Sound m := sound_of_mount hm he (by rw [htot, hfat]; exact hd.table)
    (by rw [htot]; exact hd.clusters)
  refine ⟨hsound, hvol.mounted, ?_, ?_⟩
  · rw [hroot]
    refine .singleton hin ?_
    have hent : m.entry 2 = 0x0FFFFFFF := by
      rw [(fresh_of_mount hm).entry, hfat1, show tableEntry m.disk 32 2 = get m.disk (32 * sectorSize + 8) 4 from rfl]
      refine (get_shift fun i hi => ?_).trans (show get fatInit 8 4 = 0x0FFFFFFF by decide)
      rw [hmounted.disk _ (by simp only [sectorSize]; omega), Nat.add_assoc]
      exact h.table (8 + i) (by simp only [sectorSize]; omega)
    rw [Fs.table, if_pos (by rw [hfat]; exact hd.sectorsPerFat.1), hent]
    decide
  · funext i
    rw [hroot, Fs.data, if_pos (Nat.le_refl 2), sectors]
    split
    · rename_i hi
      have hlba : fat32ClusterToLba m.vol 2 = 32 + 2 * formatSectorsPerFat n := by
        rw [fat32ClusterToLba, if_neg (Nat.lt_irrefl 2), hdata, Nat.sub_self, Nat.zero_mul, Nat.add_zero]
      rw [hspc] at hi
      rw [hlba, ← Nat.div_add_mod i sectorSize, Nat.mul_comm sectorSize, ← Nat.add_assoc, ← Nat.add_mul,
        hmounted.disk _ (by simp only [sectorSize]; omega)]
      refine h.root _ (Nat.le_add_right ..) (Nat.add_lt_add_left ?_ _) _ (Nat.mod_lt _ (by decide))
      exact Nat.div_lt_of_lt_mul (by rwa [Nat.mul_comm])
    · rfl

/-- As long as no request fails, formatting succeeds. -/
theorem fat32Format_ok (he : NoErrors fs) (hd : Divided n) :
    ∃ f, fat32Format n name fs = (true, f) ∧ Formatted n f.disk ∧ NoErrors f := by
  have he' : NoErrors fs.ask.2 := fun k => he (k + 1)
  obtain ⟨env, hl, hw⟩ := @writeSectors_ok fs.ask.2
    (formatSectors n name (get fs.ask.1.junk 0 4)) he'
  exact ⟨_, hw, stored_format hd.sectorsPerFat.1, he'.later hl⟩

/-- And so does mounting. -/
theorem Formatted.mount (h : Formatted n f.disk) (he : NoErrors f) (hd : Divided n) :
    ∃ m, fat32Mount n f = (true, m) := by
  rw [fat32Mount_eq, if_pos]
  · exact ⟨_, rfl⟩
  · refine ⟨he 0, ?_⟩
    rw [h.bootSector hd, BootSector.valid]
    simp [hd.sectorsPerCluster.1.ne', hd.sectorsPerFat.1.ne']

/-- **A freshly formatted volume.** -/
theorem empty_of_format (he : NoErrors fs) (hn : 37 ≤ n) (hlt : n < 2 ^ 34)
    (hf : fat32Format n name fs = (true, f)) (hm : fat32Mount n f = (true, m)) : Empty m := by
  have hd := divided hn hlt
  obtain ⟨f', hf', hformatted, he'⟩ := @fat32Format_ok fs n name he hd
  rw [hf] at hf'
  obtain rfl : f = f' := congrArg Prod.snd hf'
  exact hformatted.empty he' hd hlt hm

/-- How it is divided. -/
theorem shape_of_format (he : NoErrors fs) (hn : 37 ≤ n) (hlt : n < 2 ^ 34)
    (hf : fat32Format n name fs = (true, f)) (hm : fat32Mount n f = (true, m)) :
    m.vol.sectorsPerCluster = formatSectorsPerCluster n ∧ m.vol.rootCluster = 2 ∧ m.vol.totalClusters =
        (n - (32 + 2 * formatSectorsPerFat n)) / formatSectorsPerCluster n + 2 := by
  have hd := divided hn hlt
  obtain ⟨f', hf', h, -⟩ := @fat32Format_ok fs n name he hd
  rw [hf] at hf'
  obtain rfl : f = f' := congrArg Prod.snd hf'
  have hvol := (mounted_of_mount hm).shape
  rw [described, h.bootSector hd] at hvol
  exact ⟨hvol.sectorsPerCluster, hvol.rootCluster, h.totalClusters hd hlt hm⟩

/-- A device that never fails, and nothing on it. -/
def blankFs : Fs := ⟨zeroVolume, fun _ => 0, fun _ => ⟨true, fun _ => 0⟩⟩

theorem blankFs_formatted (hn : 37 ≤ n) (hlt : n < 2 ^ 34) :
    ∃ f m, fat32Format n none blankFs = (true, f) ∧ fat32Mount n f = (true, m) := by
  have hd := divided hn hlt
  obtain ⟨f, hf, h, he⟩ := @fat32Format_ok blankFs n none (fun _ => rfl) hd
  obtain ⟨m, hm⟩ := h.mount he hd
  exact ⟨f, m, hf, hm⟩

end WuBuOS.Fat32
