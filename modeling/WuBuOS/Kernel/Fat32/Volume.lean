import WuBuOS.Lib.Bytes

/-!
# A FAT32 volume and its file allocation table

`kernel/fat32_fat.c`, and `fat32_mount` of `kernel/fat32_format.c`.  The file allocation table is kept
on disk in two copies and in memory one sector at a time: `fat_cache` is the sector
`cached_fat_sector`, and if `cached_dirty` is set it is newer than the one on disk.

The block device is a disk of bytes and an environment that answers every request, of the device and
of the allocator: whether it succeeds, and with what bytes where nothing else determines them, in
memory fresh from `malloc` and in sectors whose write failed.  A failed read leaves its buffer as it
was.  Functions act on the whole, an
`Fs`, and return it with their result.

A `uint32_t` is a natural number, and so are cluster numbers and sector numbers; where the code can
overflow the model computes modulo `2 ^ 32`.
-/

namespace WuBuOS.Fat32

open Bytes

/-! ## Device and volume -/

/-- A buffer; what is beyond its end does not matter. -/
abbrev Buf := Nat → UInt8

/-- What the environment answers to a request. -/
structure Answer where
  ok : Bool
  /-- What fresh memory holds, or sectors after a write that failed. -/
  junk : Buf

/-- `FAT32_SECTOR_SIZE`. -/
def sectorSize : Nat := 512

/-- `FAT32_CLUSTER_EOC`. -/
def clusterEoc : Nat := 0x0FFFFFF8

/-- `FAT32_CLUSTER_FREE`. -/
def clusterFree : Nat := 0

/-- The entries of the table in a sector. -/
def entriesPerSector : Nat := sectorSize / 4

/-- `fat32_volume`; of `blk` there is the number of sectors. -/
structure Volume where
  nSectors : Nat
  mounted : Bool
  dirty : Bool
  sectorsPerCluster : Nat
  bytesPerCluster : Nat
  reservedSectors : Nat
  numFats : Nat
  sectorsPerFat : Nat
  rootCluster : Nat
  fat1Lba : Nat
  fat2Lba : Nat
  dataLba : Nat
  totalClusters : Nat
  freeClusters : Nat
  nextFree : Nat
  fsInfoLba : Nat
  cachedFatSector : Nat
  cachedDirty : Bool
  fatCache : Option Buf

/-- A volume, the disk it is on, and the answers still to come. -/
structure Fs where
  vol : Volume
  disk : Buf
  env : Nat → Answer

/-- The next answer, and the state in which it has been given. -/
def Fs.ask (fs : Fs) : Answer × Fs := (fs.env 0, { fs with env := fun n => fs.env (n + 1) })

def malloc (fs : Fs) : Option Buf × Fs :=
  (if fs.ask.1.ok then some fs.ask.1.junk else none, fs.ask.2)

/-- What is on the disk in `n` sectors from `lba`. -/
def sectors (disk : Buf) (lba n : Nat) : Buf :=
  fun i => if i < n * sectorSize then disk (lba * sectorSize + i) else 0

/-- `blk.read`; `none` if it fails. -/
def blkRead (lba n : Nat) (fs : Fs) : Option Buf × Fs :=
  (if fs.ask.1.ok then some (sectors fs.disk lba n) else none, fs.ask.2)

/-- `blk.write`; whether it succeeds. -/
def blkWrite (lba n : Nat) (buf : Buf) (fs : Fs) : Bool × Fs :=
  let buf := if fs.ask.1.ok then buf else fs.ask.1.junk
  (fs.ask.1.ok,
    { fs.ask.2 with disk := write fs.disk (lba * sectorSize) (n * sectorSize) buf })

/-! ## The table -/

/-- An entry in a sector of the table. -/
def entryAt (buf : Buf) (offset : Nat) : Nat := get buf (4 * offset) 4

/-- `entry & 0x0FFFFFFF`. -/
def low28 (entry : Nat) : Nat := entry &&& 0x0FFFFFFF

/-- An entry with the low 28 bits replaced. -/
def mergeEntry (old value : Nat) : Nat := (old &&& 0xF0000000) ||| (value &&& 0x0FFFFFFF)

/-- Clear `cached_dirty`. -/
def Fs.setClean (fs : Fs) : Fs := { fs with vol := { fs.vol with cachedDirty := false } }

/-- `fat32_flush`; whether it returns `0`. -/
def fat32Flush (fs : Fs) : Bool × Fs :=
  match fs.vol.fatCache with
  | none => (true, fs)
  | some cache =>
    if fs.vol.cachedDirty = false then (true, fs)
    else
      let r := blkWrite (fs.vol.fat1Lba + fs.vol.cachedFatSector) 1 cache fs
      if r.1 = false then (false, r.2)
      else if fs.vol.numFats < 2 then (true, r.2.setClean)
      else
        let r := blkWrite (fs.vol.fat2Lba + fs.vol.cachedFatSector) 1 cache r.2
        if r.1 = false then (false, r.2) else (true, r.2.setClean)

/-- Allocate the cache if there is none; whether there is one then. -/
def ensureCache (fs : Fs) : Bool × Fs :=
  if fs.vol.fatCache.isSome then (true, fs)
  else
    match malloc fs with
    | (none, fs) => (false, fs)
    | (some buf, fs) => (true, { fs with vol := { fs.vol with fatCache := some buf } })

/-- Flush the cache if it is dirty. -/
def flushIfDirty (fs : Fs) : Bool × Fs :=
  if fs.vol.cachedDirty then fat32Flush fs else (true, fs)

/-- Replace the sector in the cache, after flushing it. -/
def loadSector (fatSector : Nat) (fs : Fs) : Bool × Fs :=
  let r := flushIfDirty fs
  if r.1 = false then (false, r.2)
  else
    match blkRead (r.2.vol.fat1Lba + fatSector) 1 r.2 with
    | (none, fs) => (false, fs)
    | (some buf, fs) =>
      (true, { fs with vol := { fs.vol with fatCache := some buf, cachedFatSector := fatSector } })

/-- The first part of `fat_read_entry`: get the sector into the cache. -/
def cacheForRead (fatSector : Nat) (fs : Fs) : Bool × Fs :=
  if fs.vol.fatCache.isNone ∨ fatSector ≠ fs.vol.cachedFatSector then
    let r := ensureCache fs
    if r.1 = false then (false, r.2) else loadSector fatSector r.2
  else (true, fs)

/-- The first part of `fat_write_entry`: get the sector into the cache. -/
def cacheForWrite (fatSector : Nat) (fs : Fs) : Bool × Fs :=
  let r := ensureCache fs
  if r.1 = false then (false, r.2)
  else if fatSector ≠ r.2.vol.cachedFatSector then loadSector fatSector r.2
  else (true, r.2)

/-- `fat_read_entry`; `none` if it returns `-1`. -/
def fatReadEntry (cluster : Nat) (fs : Fs) : Option Nat × Fs :=
  let r := cacheForRead (cluster / entriesPerSector) fs
  if r.1 = false then (none, r.2)
  else
    (r.2.vol.fatCache.map fun cache => low28 (entryAt cache (cluster % entriesPerSector)), r.2)

/-- `fat_write_entry`; whether it returns `0`. -/
def fatWriteEntry (cluster value : Nat) (fs : Fs) : Bool × Fs :=
  let r := cacheForWrite (cluster / entriesPerSector) fs
  if r.1 = false then (false, r.2)
  else
    let offset := cluster % entriesPerSector
    let store := fun cache : Buf =>
      put cache (4 * offset) 4 (mergeEntry (entryAt cache offset) value)
    (true, { r.2 with vol :=
      { r.2.vol with fatCache := r.2.vol.fatCache.map store, cachedDirty := true } })

def fatCacheInvalidate (vol : Volume) : Volume :=
  { vol with cachedFatSector := 0xFFFFFFFF, cachedDirty := false }

/-! ## Mounting -/

/-- A volume structure after `memset`. -/
def zeroVolume : Volume where
  nSectors := 0
  mounted := false
  dirty := false
  sectorsPerCluster := 0
  bytesPerCluster := 0
  reservedSectors := 0
  numFats := 0
  sectorsPerFat := 0
  rootCluster := 0
  fat1Lba := 0
  fat2Lba := 0
  dataLba := 0
  totalClusters := 0
  freeClusters := 0
  nextFree := 0
  fsInfoLba := 0
  cachedFatSector := 0
  cachedDirty := false
  fatCache := none

/-- A boot sector, as `fat32_boot_sector` divides it. -/
structure BootSector where
  bytesPerSector : Nat
  sectorsPerCluster : Nat
  reservedSectors : Nat
  numFats : Nat
  sectorsPerFat : Nat
  fatFlags : Nat
  rootCluster : Nat
  fsInfoSector : Nat
  signature : Nat

/-- The fields of a boot sector that are used. -/
def bootSector (buf : Buf) : BootSector where
  bytesPerSector := get buf 11 2
  sectorsPerCluster := get buf 13 1
  reservedSectors := get buf 14 2
  numFats := get buf 16 1
  sectorsPerFat := get buf 36 4
  fatFlags := get buf 40 2
  rootCluster := get buf 44 4
  fsInfoSector := get buf 48 2
  signature := get buf 510 2

/-- `fat32_mount` accepts the boot sector. -/
def BootSector.valid (bs : BootSector) : Bool :=
  bs.signature == 0xAA55 && bs.bytesPerSector == sectorSize && bs.sectorsPerCluster != 0 &&
    bs.sectorsPerFat != 0 && 2 ≤ bs.rootCluster

/-- The volume fields that `fat32_mount` takes from the boot sector. -/
def populate (vol : Volume) (bs : BootSector) : Volume :=
  let fat1Lba := bs.reservedSectors
  let fat2Lba := fat1Lba + bs.sectorsPerFat
  let dataLba := fat2Lba + bs.sectorsPerFat
  { vol with
    mounted := true
    sectorsPerCluster := bs.sectorsPerCluster
    bytesPerCluster := bs.sectorsPerCluster * sectorSize
    reservedSectors := bs.reservedSectors
    numFats := bs.numFats
    sectorsPerFat := bs.sectorsPerFat
    rootCluster := bs.rootCluster
    fat1Lba := fat1Lba
    fat2Lba := fat2Lba
    dataLba := dataLba
    totalClusters :=
      ((vol.nSectors + 2 ^ 64 - dataLba) % 2 ^ 64 / bs.sectorsPerCluster % 2 ^ 32 + 2) % 2 ^ 32
    fsInfoLba := bs.fsInfoSector
    dirty := bs.fatFlags &&& 0x80 != 0 }

/-- The dirty-volume flag is set on a volume that is clean; whether that succeeds is ignored. -/
def markInUse (buf : Buf) (fs : Fs) : Fs :=
  if fs.vol.dirty then fs
  else (blkWrite 0 1 (put buf 40 2 ((bootSector buf).fatFlags ||| 0x80)) fs).2

/-- The counts in a sector that is an FSInfo sector. -/
def fsInfoCounts (vol : Volume) (buf : Buf) : Volume :=
  if get buf 0 4 = 0x41615252 ∧ get buf 484 4 = 0x61417272 ∧ get buf 508 4 = 0xAA550000 then
    { vol with
      freeClusters := get buf 488 4
      nextFree := if get buf 492 4 < 2 then 2 else get buf 492 4 }
  else vol

/-- Read the FSInfo sector, if there is one; whether that succeeds is ignored. -/
def readFsInfo (sector : Nat) (fs : Fs) : Fs :=
  if 0 < sector then
    match blkRead sector 1 fs with
    | (none, fs) => fs
    | (some buf, fs) => { fs with vol := fsInfoCounts fs.vol buf }
  else fs

/-- `fat32_mount`, of a device with so many sectors; whether it returns `0`. -/
def fat32Mount (nSectors : Nat) (fs : Fs) : Bool × Fs :=
  let vol := fatCacheInvalidate { zeroVolume with nSectors := nSectors }
  match blkRead 0 1 { fs with vol := vol } with
  | (none, fs) => (false, fs)
  | (some buf, fs) =>
    let bs := bootSector buf
    if bs.valid then
      (true, readFsInfo bs.fsInfoSector (markInUse buf { fs with vol := populate fs.vol bs }))
    else (false, fs)

end WuBuOS.Fat32
