import WuBuOS.Kernel.Fat32.Cluster
import WuBuOS.Kernel.Fat32.Name

/-!
# Directories

`fat32_find`, `fat32_create` and `fat32_delete` of `kernel/fat32_dir.c`.  A directory is a chain of
clusters, each an array of slots of 32 bytes.  A slot is free if its first byte is `0x00`, which also
ends the directory, or `0xE5`; it is part of a long name if its attribute is `0x0F`; otherwise it is an
entry.

The time is asked of the environment, as `datetime_to_dos` packs it.
-/

namespace WuBuOS.Fat32

open Bytes

/-! ## Slots -/

/-- `FAT32_DIR_ENTRY_SIZE`. -/
def dirEntrySize : Nat := 32

/-- `FAT32_ATTR_VOLUME_ID`. -/
def attrVolumeId : Nat := 0x08

/-- `FAT32_ATTR_DIRECTORY`. -/
def attrDirectory : Nat := 0x10

/-- `FAT32_ATTR_ARCHIVE`. -/
def attrArchive : Nat := 0x20

/-- `FAT32_MAX_NAME`. -/
def maxName : Nat := 255

/-- A field of a slot. -/
def slotField (buf : Buf) (i offset n : Nat) : Nat := get buf (i * dirEntrySize + offset) n

/-- Assign to a field of a slot. -/
def setSlotField (buf : Buf) (i offset n v : Nat) : Buf := put buf (i * dirEntrySize + offset) n v

/-- `fat32_file_info`. -/
structure FileInfo where
  name : List UInt8
  firstCluster : Nat
  fileSize : Nat
  attr : Nat
  dirCluster : Nat
  dirOffset : Nat
  deriving DecidableEq, Repr

/-- The long name read so far, `lfn`. -/
abbrev Lfn := Nat → UInt8

/-- `memset(lfn, 0, sizeof(lfn))`. -/
def noLfn : Lfn := fun _ => 0

/-- The characters of a long-name slot go to their places in `lfn`, up to the first one that is `0x0000`
or `0xFFFF`, with so many still to come.  Those of a slot with ordinal zero go in front of `lfn`, to what else is on the
stack; here only what is in `lfn` is followed, and what the scans make of such a slot is said in `Scan`. -/
def copyLfn (buf : Buf) (i seq : Nat) : Nat → Nat → Lfn → Lfn
  | 0, _, lfn => lfn
  | n + 1, j, lfn =>
    let ch := slotField buf i (lfnCharPos j) 2
    if (seq - 1) * lfnChars + j < maxName then
      if ch = 0 ∨ ch = 0xFFFF then lfn
      else
        copyLfn buf i seq n (j + 1)
          (if seq = 0 then lfn
            else Function.update lfn ((seq - 1) * lfnChars + j) (UInt8.ofNat ch))
    else lfn

/-- A long-name slot is read. -/
def readLfn (buf : Buf) (i : Nat) (lfn : Lfn) : Lfn :=
  let ord := slotField buf i 0 1
  copyLfn buf i (ord &&& 0x3F) lfnChars 0 (if ord &&& 0x40 ≠ 0 then noLfn else lfn)

/-- The 8.3 name of a slot. -/
def slotName83 (buf : Buf) (i : Nat) : List UInt8 :=
  (List.range 11).map fun k => buf (i * dirEntrySize + k)

/-- The name of an entry: the long name before it, if there is one. -/
def entryName (buf : Buf) (i : Nat) (lfn : Lfn) : List UInt8 :=
  if lfn 0 ≠ 0 then cString ((List.range maxName).map lfn) else nameFrom83 (slotName83 buf i)

/-- What is known of an entry once it is found. -/
def slotInfo (buf : Buf) (cluster i : Nat) (lfn : Lfn) : FileInfo where
  name := (cString (entryName buf i lfn)).take (maxName - 1)
  firstCluster := slotField buf i 20 2 * 2 ^ 16 + slotField buf i 26 2
  fileSize := slotField buf i 28 4
  attr := slotField buf i 11 1
  dirCluster := cluster
  dirOffset := i

/-! ## Lookup -/

/-- What looking at a slot, or at some slots, comes to. -/
inductive Scan
  /-- The directory ends here. -/
  | stop
  /-- The entry has been found. -/
  | hit (info : FileInfo)
  /-- The search goes on. -/
  | more (lfn : Lfn)

/-- One slot of the loop of `fat32_find`. -/
def findSlot (buf : Buf) (cluster : Nat) (name : List UInt8) (i : Nat) (lfn : Lfn) : Scan :=
  if slotField buf i 0 1 = 0x00 then .stop
  else if slotField buf i 0 1 = 0xE5 then .more noLfn
  else if slotField buf i 11 1 = attrLfn then .more (readLfn buf i lfn)
  else if slotField buf i 11 1 &&& attrVolumeId ≠ 0 then .more noLfn
  else if nameEq (entryName buf i lfn) name then .hit (slotInfo buf cluster i lfn)
  else .more noLfn

/-- The slots of a cluster, with so many still to be looked at. -/
def findSlots (buf : Buf) (cluster : Nat) (name : List UInt8) : Nat → Nat → Lfn → Scan
  | 0, _, lfn => .more lfn
  | n + 1, i, lfn =>
    match findSlot buf cluster name i lfn with
    | .more lfn => findSlots buf cluster name n (i + 1) lfn
    | r => r

/-- The slots of a cluster. -/
def entriesPerCluster (vol : Volume) : Nat := vol.bytesPerCluster / dirEntrySize

/-- Read a cluster. -/
def readCluster (cluster : Nat) (fs : Fs) : Option Buf × Fs :=
  blkRead (fat32ClusterToLba fs.vol cluster) fs.vol.sectorsPerCluster fs

/-- Write a cluster. -/
def writeCluster (cluster : Nat) (buf : Buf) (fs : Fs) : Bool × Fs :=
  blkWrite (fat32ClusterToLba fs.vol cluster) fs.vol.sectorsPerCluster buf fs

/-- The loop of `fat32_find` over the clusters of the directory. -/
def findLoop (name : List UInt8) : Nat → Nat → Lfn → M (Option FileInfo)
  | 0, _, _ => stuck
  | fuel + 1, cluster, lfn => do
    if IsCluster cluster then
      match ← lift (readCluster cluster) with
      | none => return none
      | some buf =>
        match findSlots buf cluster name (entriesPerCluster (← get).vol) 0 lfn with
        | .stop => return none
        | .hit info => return some info
        | .more lfn =>
          let next ← lift (fat32NextCluster cluster)
          findLoop name fuel next lfn
    else return none

/-- The root directory, for `0`. -/
def dirOrRoot (vol : Volume) (dirCluster : Nat) : Nat :=
  if dirCluster = 0 then vol.rootCluster else dirCluster

/-- `fat32_find`; `none` if it returns `-1`. -/
def fat32Find (dirCluster : Nat) (name : List UInt8) : M (Option FileInfo) := do
  let cluster := dirOrRoot (← get).vol dirCluster
  match ← lift malloc with
  | none => return none
  | some _ => findLoop name maxSteps cluster noLfn

/-! ## Creation -/

/-- The time and the date. -/
def dosNow (fs : Fs) : (Nat × Nat) × Fs := ((get fs.ask.1.junk 0 2, get fs.ask.1.junk 2 2), fs.ask.2)

/-- The slot of a `.` or `..` entry. -/
def dotSlot (buf : Buf) (i : Nat) (name : List UInt8) (cluster : Nat) : Buf :=
  let buf := write buf (i * dirEntrySize) 11 fun k => (padTo 11 name).getD k 0
  setSlotField (setSlotField (setSlotField buf i 11 1 attrDirectory) i 26 2 (cluster % 2 ^ 16))
    i 20 2 (cluster / 2 ^ 16)

/-- A new directory gets its `.` and `..`; whether there was memory for it. -/
def initDirectory (newCluster dirCluster : Nat) (fs : Fs) : Bool × Fs :=
  match malloc fs with
  | (none, fs) => (false, fs)
  | (some _, fs) =>
    let buf := dotSlot (dotSlot (fun _ => 0) 0 [dot] newCluster) 1 [dot, dot] dirCluster
    (true, (writeCluster newCluster buf fs).2)

/-- The slot can be used for a new entry. -/
def slotFree (buf : Buf) (i : Nat) : Bool := slotField buf i 0 1 == 0x00 || slotField buf i 0 1 == 0xE5

/-- The first run of `nLfn + 1` free slots, from slot `i` on, with so many places still to be tried. -/
def findRun (buf : Buf) (nLfn : Nat) : Nat → Nat → Option Nat
  | 0, _ => none
  | n + 1, i =>
    if (List.range (nLfn + 1)).all fun k => slotFree buf (i + k) then some i
    else findRun buf nLfn n (i + 1)

/-- The long-name slots, from slot `i` on. -/
def putLfn (i : Nat) : List Buf → Buf → Buf
  | [], buf => buf
  | e :: es, buf => putLfn (i + 1) es (write buf (i * dirEntrySize) dirEntrySize e)

/-- The 8.3 entry of a new file. -/
def putEntry (buf : Buf) (i : Nat) (name : List UInt8) (attr newCluster : Nat) (now : Nat × Nat) :
    Buf :=
  let buf := fill buf (i * dirEntrySize) dirEntrySize 0
  let buf := write buf (i * dirEntrySize) 11 fun k => (nameTo83 name).getD k 0
  let buf := setSlotField (setSlotField buf i 11 1 attr) i 26 2 (newCluster % 2 ^ 16)
  let buf := setSlotField buf i 20 2 (newCluster / 2 ^ 16)
  let buf := setSlotField (setSlotField buf i 14 2 now.1) i 16 2 now.2
  setSlotField (setSlotField (setSlotField buf i 22 2 now.1) i 24 2 now.2) i 18 2 now.2

/-- Use the slots from `i` on for the entry; `none` if the cluster cannot be written. -/
def useSlots (buf : Buf) (cluster i : Nat) (name : List UInt8) (attr newCluster : Nat) (fs : Fs) :
    Option FileInfo × Fs :=
  let lfn := wubuLfnBuildEntries name
  let r := dosNow fs
  let buf := putEntry (putLfn i lfn buf) (i + lfn.length) name attr newCluster r.1
  let r := writeCluster cluster buf r.2
  let info : FileInfo :=
    { name := name.take maxName
      firstCluster := newCluster
      fileSize := 0
      attr := attr
      dirCluster := cluster
      dirOffset := i + lfn.length }
  (if r.1 then some info else none, r.2)

/-- The directory is extended by a cluster; `0` if there is none. -/
def extendDir (cluster : Nat) (fs : Fs) : Nat × Fs :=
  match fat32AllocClusters 1 0 fs with
  | (0, fs) => (0, fs)
  | (new, fs) =>
    let fs := (fatWriteEntry cluster new fs).2
    let fs := (fatWriteEntry new clusterEoc fs).2
    (new, (writeCluster new (fun _ => 0) fs).2)

/-- The cluster to look for slots in after this one; `0` if there is none and no room for another. -/
def nextDirCluster (cluster : Nat) (fs : Fs) : Nat × Fs :=
  match fat32NextCluster cluster fs with
  | (next, fs) => if next = 0 ∨ clusterEoc ≤ next then extendDir cluster fs else (next, fs)

/-- The loop of `fat32_create` over the clusters of the directory. -/
def createLoop (name : List UInt8) (attr newCluster : Nat) : Nat → Nat → M (Option FileInfo)
  | 0, _ => stuck
  | fuel + 1, cluster => do
    if IsCluster cluster then
      match ← lift (readCluster cluster) with
      | none => return none
      | some buf =>
        let nLfn := (wubuLfnBuildEntries name).length
        match findRun buf nLfn (entriesPerCluster (← get).vol - nLfn) 0 with
        | some i => lift (useSlots buf cluster i name attr newCluster)
        | none =>
          let next ← lift (nextDirCluster cluster)
          if next = 0 then return none else createLoop name attr newCluster fuel next
    else return none

/-- The part of `fat32_create` after a cluster has been found for the new entry. -/
def createIn (dirCluster : Nat) (name : List UInt8) (attr newCluster : Nat) : M (Option FileInfo) := do
  match ← lift malloc with
  | none => return none
  | some _ => createLoop name attr newCluster maxSteps dirCluster

/-- Allocate the cluster of a new entry, and initialise it if that is a directory; `0` if there is no
room. -/
def newEntryCluster (dirCluster attr : Nat) (fs : Fs) : Nat × Fs :=
  match fat32AllocClusters 1 0 fs with
  | (0, fs) => (0, fs)
  | (new, fs) =>
    if attr &&& attrDirectory = 0 then (new, fs)
    else
      let r := initDirectory new dirCluster fs
      (if r.1 then new else 0, r.2)

/-- `fat32_create`; `none` if it returns `-1`. -/
def fat32Create (dirCluster : Nat) (name : List UInt8) (attr : Nat) : M (Option FileInfo) := do
  if (← get).vol.mounted = false ∨ name = [] then return none
  else
    let dirCluster := dirOrRoot (← get).vol dirCluster
    match ← fat32Find dirCluster name with
    | some existing => return some existing
    | none =>
      let newCluster ← lift (newEntryCluster dirCluster attr)
      if newCluster = 0 then return none else createIn dirCluster name attr newCluster

/-! ## Deletion -/

/-- Mark the slot of an entry as deleted; whether that succeeds. -/
def markDeleted (info : FileInfo) (fs : Fs) : Bool × Fs :=
  match malloc fs with
  | (none, fs) => (false, fs)
  | (some _, fs) =>
    match readCluster info.dirCluster fs with
    | (none, fs) => (false, fs)
    | (some buf, fs) => writeCluster info.dirCluster (setSlotField buf info.dirOffset 0 1 0xE5) fs

/-- `fat32_delete`; whether it returns `0`. -/
def fat32Delete (dirCluster : Nat) (name : List UInt8) : M Bool := do
  if (← get).vol.mounted = false then return false
  else
    match ← fat32Find (dirOrRoot (← get).vol dirCluster) name with
    | none => return false
    | some info =>
      if 2 ≤ info.firstCluster then fat32FreeChain info.firstCluster
      lift (markDeleted info)

end WuBuOS.Fat32
