import WuBuOS.Kernel.Fat32.Dir

/-!
# Files

`kernel/fat32_file.c`.  An open file has a position and, separately, the cluster that the position is
in; reading and writing move both along, and `fat32_seek` finds the cluster for a position.  The size in
the directory entry is brought up to date when the file is closed.

What a read stores in its buffer is returned as a list of bytes, whose length is the number of bytes
read.  A position is a 64-bit number.
-/

namespace WuBuOS.Fat32

open Bytes

/-- `fat32_file`. -/
structure File where
  firstCluster : Nat
  currentCluster : Nat
  fileSize : Nat
  attr : Nat
  pos : Nat
  writeMode : Bool
  dirCluster : Nat
  dirOffset : Nat
  deriving DecidableEq, Repr

/-- The `mode` of `fat32_open`. -/
inductive Mode
  | r
  | rw
  | w
  | a
  | other
  deriving DecidableEq, Repr

/-! ## Opening and closing -/

/-- A handle on an entry, at its beginning. -/
def openInfo (info : FileInfo) (size : Nat) (writeMode : Bool) : File where
  firstCluster := info.firstCluster
  currentCluster := info.firstCluster
  fileSize := size
  attr := info.attr
  pos := 0
  writeMode := writeMode
  dirCluster := info.dirCluster
  dirOffset := info.dirOffset

/-- The walk of `fat32_open` to the last cluster of a file. -/
def lastClusterLoop : Nat → Nat → M Nat
  | 0, _ => stuck
  | fuel + 1, c => do
    if c < 2 then return c
    else
      let next ← lift (fat32NextCluster c)
      if next = 0 ∨ clusterEoc ≤ next then return c else lastClusterLoop fuel next

/-- `fat32_open` for writing to a file that is new or made anew. -/
def openNew (dirCluster : Nat) (name : List UInt8) : M (Option File) := do
  let info ← fat32Create dirCluster name attrArchive
  return info.map fun info => openInfo info 0 true

/-- `fat32_open` for appending to a file that exists. -/
def openAppend (info : FileInfo) : M (Option File) := do
  let last ← lastClusterLoop maxSteps info.firstCluster
  return some { openInfo info info.fileSize true with currentCluster := last, pos := info.fileSize }

/-- Delete a file, if there is one. -/
def deleteIfFound (found : Option FileInfo) (dirCluster : Nat) (name : List UInt8) : M Unit :=
  match found with
  | none => pure ()
  | some _ => do
    let _ ← fat32Delete dirCluster name
    pure ()

/-- `fat32_open`; `none` if it returns `-1`. -/
def fat32Open (dirCluster : Nat) (name : List UInt8) (mode : Mode) : M (Option File) := do
  if (← get).vol.mounted = false then return none
  else
    let dirCluster := dirOrRoot (← get).vol dirCluster
    let found ← fat32Find dirCluster name
    match mode with
    | .r => return found.map fun info => openInfo info info.fileSize false
    | .rw => return found.map fun info => openInfo info info.fileSize true
    | .w => do
      deleteIfFound found dirCluster name
      openNew dirCluster name
    | .a =>
      match found with
      | none => openNew dirCluster name
      | some info => openAppend info
    | .other => return none

/-- The fields of the directory entry that closing brings up to date. -/
def closeSlot (buf : Buf) (fp : File) (now : Nat × Nat) : Buf :=
  let buf := setSlotField buf fp.dirOffset 28 4 fp.fileSize
  setSlotField (setSlotField (setSlotField buf fp.dirOffset 22 2 now.1) fp.dirOffset 24 2 now.2)
    fp.dirOffset 18 2 now.2

/-- `fat32_close`.  Nothing is reported if it fails. -/
def fat32Close (fp : File) (fs : Fs) : Fs :=
  if fp.writeMode ∧ 2 ≤ fp.firstCluster ∧ 2 ≤ fp.dirCluster then
    match malloc fs with
    | (none, fs) => fs
    | (some _, fs) =>
      match readCluster fp.dirCluster fs with
      | (none, fs) => fs
      | (some buf, fs) =>
        let r := dosNow fs
        (writeCluster fp.dirCluster (closeSlot buf fp r.1) r.2).2
  else fs

/-! ## Reading -/

/-- The bytes of a buffer from `i` on. -/
def bytesOf (buf : Buf) (i n : Nat) : List UInt8 := (List.range n).map fun k => buf (i + k)

/-- How many of `n` bytes lie in the cluster of a position. -/
def inCluster (vol : Volume) (pos n : Nat) : Nat :=
  min n (vol.bytesPerCluster - pos % vol.bytesPerCluster)

/-- Read within a cluster, into the buffer itself or, if it is not the whole cluster, through another
one. -/
def readPart (cluster pos n : Nat) (fs : Fs) : Option (List UInt8) × Fs :=
  let offset := pos % fs.vol.bytesPerCluster
  if offset = 0 ∧ n = fs.vol.bytesPerCluster then
    match readCluster cluster fs with
    | (none, fs) => (none, fs)
    | (some buf, fs) => (some (bytesOf buf 0 n), fs)
  else
    match malloc fs with
    | (none, fs) => (none, fs)
    | (some _, fs) =>
      match readCluster cluster fs with
      | (none, fs) => (none, fs)
      | (some buf, fs) => (some (bytesOf buf offset n), fs)

/-- Move on by `n` bytes, to the next cluster if this one is used up. -/
def advance (fp : File) (n : Nat) (fs : Fs) : File × Fs :=
  let offset := fp.pos % fs.vol.bytesPerCluster
  let fp' := { fp with pos := fp.pos + n }
  if fs.vol.bytesPerCluster ≤ offset + n then
    let r := fat32NextCluster fp.currentCluster fs
    ({ fp' with currentCluster := r.1 }, r.2)
  else (fp', fs)

/-- The loop of `fat32_read`.  Every round reads at least one byte, so there are not more rounds than
bytes. -/
def readLoop : Nat → Nat → File → Fs → List UInt8 × File × Fs
  | 0, _, fp, fs => ([], fp, fs)
  | fuel + 1, remaining, fp, fs =>
    if 0 < remaining ∧ IsCluster fp.currentCluster then
      let toRead := inCluster fs.vol fp.pos remaining
      match readPart fp.currentCluster fp.pos toRead fs with
      | (none, fs) => ([], fp, fs)
      | (some bytes, fs) =>
        let r := advance fp toRead fs
        let rest := readLoop fuel (remaining - toRead) r.1 r.2
        (bytes ++ rest.1, rest.2)
    else ([], fp, fs)

def fat32Read (fp : File) (n : Nat) (fs : Fs) : List UInt8 × File × Fs :=
  let remaining :=
    if fp.fileSize < (fp.pos + n) % 2 ^ 64 then (fp.fileSize + 2 ^ 64 - fp.pos) % 2 ^ 64 else n
  readLoop remaining remaining fp fs

/-! ## Writing -/

/-- The walk of `fat32_write` for the cluster before the current one. -/
def prevClusterLoop (cluster : Nat) : Nat → Nat → Nat → M Nat
  | 0, _, _ => stuck
  | fuel + 1, prev, c => do
    if IsCluster c then
      let next ← lift (fat32NextCluster c)
      if next = cluster ∨ next = 0 ∨ clusterEoc ≤ next then return prev
      else prevClusterLoop cluster fuel c next
    else return prev

/-- The cluster before the current one, as `fat32_write` sees it before it begins. -/
def prevCluster (fp : File) : M Nat :=
  if IsCluster fp.currentCluster then
    if fp.firstCluster = fp.currentCluster then return fp.firstCluster
    else prevClusterLoop fp.currentCluster maxSteps fp.firstCluster fp.firstCluster
  else return 0

/-- A cluster is added to the file, behind `prev`; `none` if there is no room. -/
def addCluster (fp : File) (prev : Nat) (fs : Fs) : Option File × Fs :=
  match fat32AllocClusters 1 0 fs with
  | (0, fs) => (none, fs)
  | (new, fs) =>
    let fs :=
      if 2 ≤ fp.firstCluster ∧ IsCluster prev then (fatWriteEntry prev new fs).2 else fs
    let fs := (fatWriteEntry new clusterEoc fs).2
    (some { fp with
      firstCluster := if fp.firstCluster < 2 then new else fp.firstCluster
      currentCluster := new }, fs)

/-- Make sure that there is a cluster to write to. -/
def ensureCluster (fp : File) (prev : Nat) (fs : Fs) : Option File × Fs :=
  if IsCluster fp.currentCluster then (some fp, fs) else addCluster fp prev fs

/-- Write within a cluster, from the buffer itself or, if it is not the whole cluster, by changing part
of what is there; whether that succeeds. -/
def writePart (cluster pos : Nat) (src : List UInt8) (fs : Fs) : Bool × Fs :=
  let offset := pos % fs.vol.bytesPerCluster
  if offset = 0 ∧ src.length = fs.vol.bytesPerCluster then
    writeCluster cluster (fun i => src.getD i 0) fs
  else
    match malloc fs with
    | (none, fs) => (false, fs)
    | (some _, fs) =>
      match readCluster cluster fs with
      | (none, fs) => (false, fs)
      | (some buf, fs) => writeCluster cluster (write buf offset src.length fun i => src.getD i 0) fs

/-- The size of the file after its position has been moved on. -/
def grow (fp : File) (n : Nat) : Nat :=
  if fp.fileSize < fp.pos + n then (fp.pos + n) % 2 ^ 32 else fp.fileSize

/-- The loop of `fat32_write`; the number of bytes written, and the cluster before the current one
goes along.  Every round writes at least one byte. -/
def writeLoop : Nat → List UInt8 → Nat → File → Fs → Nat × File × Fs
  | 0, _, _, fp, fs => (0, fp, fs)
  | fuel + 1, src, prev, fp, fs =>
    if src = [] then (0, fp, fs)
    else
      match ensureCluster fp prev fs with
      | (none, fs) => (0, fp, fs)
      | (some fp, fs) =>
        let toWrite := inCluster fs.vol fp.pos src.length
        match writePart fp.currentCluster fp.pos (src.take toWrite) fs with
        | (false, fs) => (0, fp, fs)
        | (true, fs) =>
          let full := fs.vol.bytesPerCluster ≤ fp.pos % fs.vol.bytesPerCluster + toWrite
          let prev := if full then fp.currentCluster else prev
          let r := advance { fp with fileSize := grow fp toWrite } toWrite fs
          let rest := writeLoop fuel (src.drop toWrite) prev r.1 r.2
          (toWrite + rest.1, rest.2)

def fat32Write (fp : File) (src : List UInt8) : M (Nat × File) := do
  if fp.writeMode = false then return (0, fp)
  else
    let prev ← prevCluster fp
    lift fun fs =>
      let r := writeLoop src.length src prev fp fs
      ((r.1, r.2.1), r.2.2)

/-! ## Seeking -/

/-- The walk of `fat32_seek`, with so many clusters still to go. -/
def seekLoop : Nat → Nat → Fs → Nat × Fs
  | 0, cluster, fs => (cluster, fs)
  | n + 1, cluster, fs =>
    match fat32NextCluster cluster fs with
    | (next, fs) => if next = 0 ∨ clusterEoc ≤ next then (cluster, fs) else seekLoop n next fs

/-- The origin that `whence` stands for. -/
def seekOrigin (fp : File) : Nat → Option Int
  | 0 => some 0
  | 1 => some fp.pos
  | 2 => some fp.fileSize
  | _ => none

/-- `fat32_seek`; `none` if it returns `-1`. -/
def fat32Seek (fp : File) (offset : Int) (whence : Nat) (fs : Fs) : Option File × Fs :=
  match seekOrigin fp whence with
  | none => (none, fs)
  | some origin =>
    if origin + offset < 0 then (none, fs)
    else
      let pos := (origin + offset).toNat
      let r := seekLoop (pos / fs.vol.bytesPerCluster) fp.firstCluster fs
      (some { fp with pos := pos, currentCluster := r.1 }, r.2)

end WuBuOS.Fat32
