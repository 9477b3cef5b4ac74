import WuBuOS.Lib.Runs

/-!
# The namespace of the KV cache

`kernel/wubu_kvfs.c`.  Ranges of blocks are mounted at paths, and a path is looked up by looking for it,
and then for what is left of it without its last segment, and so on, in a hash table of the mounts.

A lookup should end at the root at the latest, which is mounted from the beginning.  But the root is put
into the first slot of the table, and not where its hash value says, so that it is not found there; and
once it is found, because the table has been built again or filled up, every path has something mounted
above it, and `wubu_kvfs_mount` takes that for the path being mounted already.  So whatever has been
called before, either the root does not resolve or nothing can be mounted (`root_lost_or_mounts_refused`),
and there is no sequence of calls along which paths resolve as they should (`never_resolves`).

Memory is taken to be available whenever it is asked for.
-/

namespace WuBuOS.Kvfs

open Function (update)

/-! ## Paths -/

/-- A C string, without the zero at its end. -/
abbrev Path := List UInt8

/-- The character `/`. -/
def slash : UInt8 := 0x2f

/-- The path `/`. -/
def root : Path := [slash]

def fnv1a (path : Path) : UInt64 :=
  path.foldl (fun h c => (h ^^^ c.toUInt64) * 0x100000001b3) 0xcbf29ce484222325

/-- The slashes at the end of a path are removed, but not the first character. -/
def stripSlashes (path : Path) : Path :=
  match path with
  | [] => []
  | c :: rest => c :: (rest.reverse.dropWhile (· == slash)).reverse

/-- The place of the last slash of a path, as `strrchr` finds it. -/
def lastSlash (path : Path) : Option Nat :=
  (path.reverse.findIdx? (· == slash)).map fun i => path.length - 1 - i

/-! ## The table -/

/-- `wubu_kvfs_mount_t`; a mount of no blocks is dead. -/
structure Mount where
  path : Path
  startBlock : Nat
  nBlocks : Nat
  blockSize : Nat
  absOffset : Nat
  absLimit : Nat
  deriving DecidableEq, Repr

/-- `KVFS_SLOT_EMPTY`, `KVFS_SLOT_LIVE` and `KVFS_SLOT_TOMB`. -/
inductive SlotState
  | empty
  | live
  | tomb
  deriving DecidableEq, Repr

/-- `wubu_kvfs_t`; `n_mounts` is the number of mounts. -/
structure Fs where
  mounts : List Mount
  nLive : Int
  blockSize : Nat
  totalBlocks : Nat
  usedBlocks : Nat
  hashKeys : Nat → UInt64
  hashVals : Nat → Nat
  hashState : Nat → SlotState
  nSlots : Nat

/-- A slot is taken for a mount. -/
def setSlot (fs : Fs) (slot : Nat) (h : UInt64) (idx : Nat) : Fs :=
  { fs with
    hashState := update fs.hashState slot .live
    hashKeys := update fs.hashKeys slot h
    hashVals := update fs.hashVals slot idx }

/-- The loop of `kvfs_rehash` that looks for an empty slot. -/
def rehashLoop (h : UInt64) (idx : Nat) : Nat → Nat → Fs → Fs
  | 0, _, fs => fs
  | p + 1, slot, fs =>
    if fs.hashState slot = .empty then setSlot fs slot h idx
    else rehashLoop h idx p ((slot + 1) % fs.nSlots) fs

def kvfsRehash (fs : Fs) (newSlots : Nat) : Fs :=
  let fs := { fs with
    hashKeys := fun _ => 0
    hashVals := fun _ => 0
    hashState := fun _ => .empty
    nSlots := newSlots }
  fs.mounts.zipIdx.foldl
    (fun fs m =>
      if m.1.nBlocks = 0 then fs
      else
        let h := fnv1a m.1.path
        rehashLoop h m.2 newSlots (h.toNat % newSlots) fs)
    fs

/-- The loop of `kvfs_find_slot`. -/
def findSlotLoop (fs : Fs) (h : UInt64) : Nat → Nat → Option Nat
  | 0, _ => none
  | p + 1, slot =>
    if fs.hashState slot = .empty then none
    else if fs.hashState slot = .live ∧ fs.hashKeys slot = h then some slot
    else findSlotLoop fs h p ((slot + 1) &&& (fs.nSlots - 1))

def kvfsFindSlot (fs : Fs) (path : Path) : Option Nat :=
  findSlotLoop fs (fnv1a path) fs.nSlots ((fnv1a path).toNat &&& (fs.nSlots - 1))

/-- The loop of `kvfs_find_mount`: a mount that has been found, or else what is left of the path.  The
path gets shorter each time. -/
def findMountLoop (fs : Fs) : Nat → Path → Nat ⊕ Path
  | 0, buf => .inr buf
  | fuel + 1, buf =>
    match kvfsFindSlot fs buf with
    | some slot => .inl (fs.hashVals slot)
    | none =>
      match lastSlash buf with
      | none => .inr buf
      | some i => if i = 0 then .inr buf else findMountLoop fs fuel (buf.take i)

/-- `kvfs_find_mount`.  For the root, what it returns is not the mount but the slot. -/
def kvfsFindMount (fs : Fs) (path : Path) : Option Nat :=
  let buf := stripSlashes (path.take 255)
  match findMountLoop fs (buf.length + 1) buf with
  | .inl idx => some idx
  | .inr buf => if buf.head? = some slash then kvfsFindSlot fs root else none

/-! ## Lookup -/

/-- What comes of a lookup: `-1`, a block and an offset, or undefined behaviour. -/
inductive Outcome
  | unmounted
  | found (block offset : Nat)
  | fault
  deriving DecidableEq, Repr

/-- `wubu_kvfs_lookup`.  It is undefined if there is no such mount, if the path of the mount is longer,
and if the mount is empty, since then the offset is a remainder of a division by zero. -/
def wubuKvfsLookup (fs : Fs) (path : Path) : Outcome :=
  match kvfsFindMount fs path with
  | none => .unmounted
  | some idx =>
    match fs.mounts[idx]? with
    | none => .fault
    | some m =>
      if m.path ≠ root ∧ m.path ≠ path then
        let size := (m.absLimit + 2 ^ 64 - m.absOffset) % 2 ^ 64
        if path.length < m.path.length ∨ size = 0 then .fault
        else
          let sub := (path.drop m.path.length).dropWhile (· == slash)
          .found m.startBlock ((fnv1a sub).toNat % size)
      else .found m.startBlock 0

/-- `wubu_kvfs_handle_t`. -/
structure Handle where
  absOffset : Nat
  absLimit : Nat
  deriving DecidableEq, Repr

def wubuKvfsOpen (fs : Fs) (path : Path) : Option Handle :=
  match wubuKvfsLookup fs path with
  | .found _ offset =>
    match (kvfsFindMount fs path).bind (fs.mounts[·]?) with
    | none => none
    | some m => some ⟨(m.absOffset + offset) % 2 ^ 64, m.absLimit⟩
  | _ => none

/-! ## Mounting -/

/-- The number of slots of a new table: the loop of `wubu_kvfs_create`. -/
def slotsLoop (totalBlocks : Nat) : Nat → Nat → Nat
  | 0, slots => slots
  | fuel + 1, slots =>
    if slots < totalBlocks / 4 ∧ slots < 4096 then slotsLoop totalBlocks fuel (slots * 2) else slots

def wubuKvfsCreate (blockSize totalBlocks : UInt32) : Fs :=
  let fs : Fs :=
    { mounts := []
      nLive := 0
      blockSize := blockSize.toNat
      totalBlocks := totalBlocks.toNat
      usedBlocks := 0
      hashKeys := fun _ => 0
      hashVals := fun _ => 0
      hashState := fun _ => .empty
      nSlots := 0 }
  let fs := kvfsRehash fs (slotsLoop totalBlocks.toNat 8 16)
  let mount : Mount :=
    ⟨root, 0, totalBlocks.toNat, blockSize.toNat, 0, totalBlocks.toNat * blockSize.toNat⟩
  setSlot { fs with mounts := [mount], nLive := 1 } 0 (fnv1a root) 0

/-- The loop of `wubu_kvfs_mount` that looks for a slot. -/
def insertLoop (h : UInt64) (idx : Nat) : Nat → Nat → Fs → Bool × Fs
  | 0, _, fs => (false, fs)
  | p + 1, slot, fs =>
    if fs.hashState slot = .empty ∨ fs.hashState slot = .tomb then (true, setSlot fs slot h idx)
    else insertLoop h idx p ((slot + 1) &&& (fs.nSlots - 1)) fs

/-- The mount that is added. -/
def newMount (fs : Fs) (path : Path) (startBlock nBlocks : UInt32) : Mount where
  path := path.take 255
  startBlock := startBlock.toNat
  nBlocks := nBlocks.toNat
  blockSize := fs.blockSize
  absOffset := startBlock.toNat * fs.blockSize
  absLimit := (startBlock + nBlocks).toNat * fs.blockSize

/-- `wubu_kvfs_mount`; whether it returns `0`, or nothing if it is undefined. -/
def wubuKvfsMount (fs : Fs) (path : Path) (startBlock nBlocks : UInt32) : Option (Bool × Fs) :=
  if nBlocks = 0 then some (false, fs)
  else if fs.totalBlocks < (startBlock + nBlocks).toNat then some (false, fs)
  else
    match wubuKvfsLookup fs path with
    | .found _ _ => some (false, fs)
    | .fault => none
    | .unmounted =>
      let idx := fs.mounts.length
      let fs := { fs with
        mounts := fs.mounts ++ [newMount fs path startBlock nBlocks]
        usedBlocks := (fs.usedBlocks + nBlocks.toNat) % 2 ^ 32
        nLive := fs.nLive + 1 }
      -- the table that is built here already has the new mount
      let fs := if (fs.nSlots : Int) < fs.nLive * 2 then kvfsRehash fs (fs.nSlots * 2) else fs
      let h := fnv1a path
      some (insertLoop h idx fs.nSlots (h.toNat &&& (fs.nSlots - 1)) fs)

/-- `wubu_kvfs_unmount`; whether it returns `0`, or nothing if it is undefined. -/
def wubuKvfsUnmount (fs : Fs) (path : Path) : Option (Bool × Fs) :=
  match kvfsFindSlot fs path with
  | none => some (false, fs)
  | some slot =>
    match fs.mounts[fs.hashVals slot]? with
    | none => none
    | some m =>
      if m.path = root then some (false, fs)
      else
        some (true, { fs with
          hashState := update fs.hashState slot .tomb
          mounts := fs.mounts.set (fs.hashVals slot) { m with nBlocks := 0 }
          nLive := fs.nLive - 1 })

/-! ## How paths should resolve -/

/-- The mount is live, in this place. -/
def Live (fs : Fs) (i : Nat) (m : Mount) : Prop := fs.mounts[i]? = some m ∧ (m.nBlocks ≠ 0 ∨ i = 0)

/-- The path of a mount is a prefix of a path, up to the end of a segment. -/
def SegmentPrefix (p path : Path) : Prop := p = root ∨ p = path ∨ p ++ [slash] <+: path

/-- The path should resolve to this mount. -/
def Resolved (fs : Fs) (path : Path) (i : Nat) (m : Mount) : Prop :=
  Live fs i m ∧ SegmentPrefix m.path path ∧
    ∀ i' m', Live fs i' m' → SegmentPrefix m'.path path → m'.path.length ≤ m.path.length

/-- The hash function does not collide on the paths of the mounts, and on this path and the parts of it
that are looked up. -/
def Apart (fs : Fs) (path : Path) : Prop :=
  ∀ p q, (p <+: path ∨ p = root ∨ ∃ i m, Live fs i m ∧ m.path = p) →
    (q <+: path ∨ q = root ∨ ∃ i m, Live fs i m ∧ m.path = q) → fnv1a p = fnv1a q → p = q

/-- A path that begins with a slash. -/
def Absolute (path : Path) : Prop := path.head? = some slash ∧ 0 ∉ path

/-- **Paths resolve as they should**: what is not mounted can be mounted, and the lookup of a path ends
at the mount with the longest path. -/
structure Resolves (fs : Fs) : Prop where
  mounts : ∀ (path : Path) (startBlock nBlocks : UInt32), Absolute path → Apart fs path →
    (∀ i m, Live fs i m → m.path ≠ path) → nBlocks ≠ 0 →
    startBlock.toNat + nBlocks.toNat ≤ fs.totalBlocks →
    ∃ fs', wubuKvfsMount fs path startBlock nBlocks = some (true, fs')
  lookups : ∀ path, Absolute path → Apart fs path → ∃ i m offset, Resolved fs path i m ∧
    wubuKvfsLookup fs path = .found m.startBlock offset ∧
    wubuKvfsOpen fs path = some ⟨(m.absOffset + offset) % 2 ^ 64, m.absLimit⟩

/-- A call of a function of `wubu_kvfs.h` that changes the namespace. -/
inductive Call
  | mount (path : Path) (startBlock nBlocks : UInt32)
  | unmount (path : Path)
  deriving DecidableEq, Repr

/-- A call is made; nothing follows one that is undefined. -/
def step (fs : Fs) : Call → Option Fs
  | .mount path startBlock nBlocks => (wubuKvfsMount fs path startBlock nBlocks).map Prod.snd
  | .unmount path => (wubuKvfsUnmount fs path).map Prod.snd

/-! ## The root of a new namespace -/

theorem slotsLoop_eq (totalBlocks fuel k : Nat) : ∃ k', slotsLoop totalBlocks fuel (2 ^ (k + 4)) = 2 ^ (k' + 4) := by
  induction fuel generalizing k with
  | zero => exact ⟨k, rfl⟩
  | succ fuel ih =>
    rw [slotsLoop]
    split
    · rw [← Nat.pow_succ, show (k + 4).succ = k + 1 + 4 by omega]
      exact ih (k + 1)
    · exact ⟨k, rfl⟩

/-- The root does not belong into the first slot, whatever the size of the table. -/
theorem rootSlot_ne_zero (k : Nat) : (fnv1a root).toNat &&& (2 ^ (k + 4) - 1) ≠ 0 := by
  rw [Nat.and_two_pow_sub_one_eq_mod]
  intro h
  have hmod : (fnv1a root).toNat % 2 ^ (k + 4) % 2 ^ 4 = (fnv1a root).toNat % 2 ^ 4 :=
    Nat.mod_mod_of_dvd _ (Nat.pow_dvd_pow 2 (Nat.le_add_left 4 k))
  rw [h] at hmod
  exact absurd hmod (by decide)

/-- **The root is not found** in a new namespace. -/
theorem create_findSlot (blockSize totalBlocks : UInt32) :
    kvfsFindSlot (wubuKvfsCreate blockSize totalBlocks) root = none := by
  obtain ⟨k, hk⟩ := slotsLoop_eq totalBlocks.toNat 8 0
  have hslots : (wubuKvfsCreate blockSize totalBlocks).nSlots = 2 ^ (k + 4) := hk
  have hempty : (wubuKvfsCreate blockSize totalBlocks).hashState
      ((fnv1a root).toNat &&& (2 ^ (k + 4) - 1)) = .empty :=
    Function.update_of_ne (rootSlot_ne_zero k) ..
  obtain ⟨n, hn⟩ := Nat.exists_eq_succ_of_ne_zero (Nat.pos_iff_ne_zero.1 (Nat.two_pow_pos (k + 4)))
  rw [kvfsFindSlot, hslots]
  nth_rewrite 1 [hn]
  rw [findSlotLoop, if_pos hempty]

variable {fs : Fs} {path : Path}

/-- Where the root is not found, it does not resolve. -/
theorem lookup_root (h : kvfsFindSlot fs root = none) : wubuKvfsLookup fs root = .unmounted := by
  have hfind : kvfsFindMount fs root = none := by
    change (match findMountLoop fs 2 root with
      | .inl idx => some idx
      | .inr buf => if buf.head? = some slash then kvfsFindSlot fs root else none) = none
    rw [findMountLoop, h]
    rfl
  rw [wubuKvfsLookup, hfind]

/-! ## Where the root is found -/

theorem findMountLoop_head (fs : Fs) : ∀ (fuel : Nat) (buf rest : Path), buf.head? = some slash →
    findMountLoop fs fuel buf = .inr rest → rest.head? = some slash
  | 0, _, _, hbuf, h => Sum.inr.inj h ▸ hbuf
  | fuel + 1, buf, rest, hbuf, h => by
    rw [findMountLoop] at h
    split at h
    · cases h
    · split at h
      · exact Sum.inr.inj h ▸ hbuf
      · next i _ =>
        split at h
        · exact Sum.inr.inj h ▸ hbuf
        · next hi =>
          refine findMountLoop_head fs fuel _ rest ?_ h
          rw [List.head?_take, if_neg hi, hbuf]

theorem stripSlashes_head (path : Path) : (stripSlashes path).head? = path.head? := by
  cases path with
  | nil => rfl
  | cons c rest => rfl

/-- Every path is taken to be below something that is mounted. -/
theorem lookup_ne_unmounted (h : kvfsFindSlot fs root ≠ none) (hpath : path.head? = some slash) :
    wubuKvfsLookup fs path ≠ .unmounted := by
  have hfind : kvfsFindMount fs path ≠ none := by
    have hhead : (stripSlashes (path.take 255)).head? = some slash := by
      rw [stripSlashes_head, List.head?_take, if_neg (by decide), hpath]
    rw [kvfsFindMount]
    split
    · exact Option.some_ne_none _
    · next buf hbuf =>
      rw [if_pos (findMountLoop_head fs _ _ buf hhead hbuf)]
      exact h
  obtain ⟨idx, hidx⟩ := Option.ne_none_iff_exists'.1 hfind
  rw [wubuKvfsLookup, hidx]
  dsimp only
  cases fs.mounts[idx]? with
  | none => exact fun h => Outcome.noConfusion h
  | some m =>
    dsimp only
    split
    · split
      · exact fun h => Outcome.noConfusion h
      · exact fun h => Outcome.noConfusion h
    · exact fun h => Outcome.noConfusion h

/-- Nothing is mounted at a path that can be looked up. -/
theorem mount_refused (h : wubuKvfsLookup fs path ≠ .unmounted) (startBlock nBlocks : UInt32) (fs' : Fs) :
    wubuKvfsMount fs path startBlock nBlocks ≠ some (true, fs') := by
  rw [wubuKvfsMount]
  split
  · simp
  · split
    · simp
    · split
      · simp
      · simp
      · next hlookup => exact absurd hlookup h

/-- **The root does not resolve, or nothing can be mounted.** -/
theorem root_lost_or_mounts_refused (fs : Fs) :
    wubuKvfsLookup fs root = .unmounted ∨ ∀ path startBlock nBlocks fs', Absolute path →
      wubuKvfsMount fs path startBlock nBlocks ≠ some (true, fs') := by
  by_cases h : kvfsFindSlot fs root = none
  · exact Or.inl (lookup_root h)
  · exact Or.inr fun path startBlock nBlocks fs' hpath =>
      mount_refused (lookup_ne_unmounted h hpath.1) startBlock nBlocks fs'

theorem apart_root (blockSize totalBlocks : UInt32) : Apart (wubuKvfsCreate blockSize totalBlocks) root := by
  have hsplit : ∀ p : Path, (p <+: root ∨ p = root ∨
      ∃ i m, Live (wubuKvfsCreate blockSize totalBlocks) i m ∧ m.path = p) → p = [] ∨ p = root := by
    rintro p (hp | hp | ⟨i, m, hm, rfl⟩)
    · exact (List.prefix_cons_iff.1 hp).imp id fun ⟨t, ht, h⟩ => by
        rw [ht, List.prefix_nil.1 h]
        rfl
    · exact Or.inr hp
    · obtain rfl : i = 0 := by
        have hi := (List.getElem?_eq_some_iff.1 hm.1).1
        change i < 1 at hi
        omega
      cases hm.1
      exact Or.inr rfl
  intro p q hp hq heq
  obtain rfl | rfl := hsplit p hp
  · obtain rfl | rfl := hsplit q hq
    · rfl
    · exact absurd heq (by decide)
  · obtain rfl | rfl := hsplit q hq
    · exact absurd heq (by decide)
    · rfl

/-- **Paths never resolve as they should**: along no sequence of calls do they in every state, and in
every state the root does not resolve or nothing can be mounted. -/
theorem never_resolves (blockSize totalBlocks : UInt32) (calls : List Call) :
    (¬ ∀ n fs, (calls.take n).foldlM step (wubuKvfsCreate blockSize totalBlocks) = some fs → Resolves fs) ∧
      ∀ fs, calls.foldlM step (wubuKvfsCreate blockSize totalBlocks) = some fs →
        wubuKvfsLookup fs root = .unmounted ∨ ∀ path startBlock nBlocks fs', Absolute path →
          wubuKvfsMount fs path startBlock nBlocks ≠ some (true, fs') := by
  refine ⟨fun h => ?_, fun fs _ => root_lost_or_mounts_refused fs⟩
  obtain ⟨i, m, offset, -, hlookup, -⟩ :=
    (h 0 _ rfl).lookups root ⟨rfl, by decide⟩ (apart_root blockSize totalBlocks)
  rw [lookup_root (create_findSlot blockSize totalBlocks)] at hlookup
  cases hlookup

/-- A namespace of 64 blocks has just been created: its root cannot be looked up. -/
theorem new_root_unmounted :
    wubuKvfsLookup (wubuKvfsCreate 16 64) root = .unmounted ∧ ¬ Resolves (wubuKvfsCreate 16 64) := by
  have hlookup : wubuKvfsLookup (wubuKvfsCreate 16 64) root = .unmounted := by decide
  refine ⟨hlookup, fun h => ?_⟩
  obtain ⟨i, m, offset, -, hfound, -⟩ := h.lookups root ⟨rfl, by decide⟩ (apart_root 16 64)
  rw [hlookup] at hfound
  cases hfound

end WuBuOS.Kvfs
