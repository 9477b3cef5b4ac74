import WuBuOS.Kernel.Kvfs
import WuBuOS.Lib.Bytes

/-!
# Reads and writes of the KV tensor

`wubu_kvfs_route_read` and `wubu_kvfs_route_write` resolve a path to a mount and an offset into it, and read or
write elements of the tensor from there.  The offset of the caller comes on top of that, but the bound check leaves
it out, and looks at the end of the tensor and not of the mount.  So a read or write stays in its mount if and only
if what is left of the mount is enough for it, or it is refused anyway (`route_confined_iff`).
-/

namespace WuBuOS.Kvfs

/-- What comes of a read or write: `-1`, undefined behaviour, or so many elements from the first. -/
inductive Routed
  | refused
  | fault
  | served (first n : Nat)
  deriving DecidableEq, Repr

/-- The mount that a path resolves to. -/
def resolvedMount (fs : Fs) (path : Path) : Option Mount := (kvfsFindMount fs path).bind (fs.mounts[·]?)

def nFloats (count : UInt32) : Nat := if count.toNat / 4 = 0 then 1 else count.toNat / 4

/-- What `wubu_kvfs_route_read` and `wubu_kvfs_route_write` do before they copy. -/
def route (fs : Fs) (capacity : Nat) (path : Path) (offset : UInt64) (count : UInt32) : Routed :=
  match wubuKvfsLookup fs path with
  | .unmounted => .refused
  | .fault => .fault
  | .found _ rel =>
    match resolvedMount fs path with
    | none => .refused
    | some m =>
      let startFloat := offset.toNat / 4
      let base := (m.absOffset + rel) % 2 ^ 64
      if capacity < (base + nFloats count) % 2 ^ 64 then .refused else .served (base + startFloat) (nFloats count)

/-- `wubu_kvfs_route_read`, from the bytes of the tensor: the buffer and `nread`. -/
def wubuKvfsRouteRead (fs : Fs) (capacity : Nat) (kv data : Nat → UInt8) (nread : Nat) (path : Path) (offset : UInt64)
    (count : UInt32) : Routed × (Nat → UInt8) × Nat :=
  match route fs capacity path offset count with
  | .served first n => (.served first n, Bytes.write data 0 (4 * n) fun i => kv (4 * first + i), 4 * n)
  | r => (r, data, nread)

/-- `wubu_kvfs_route_write`: the bytes of the tensor and `nwritten`. -/
def wubuKvfsRouteWrite (fs : Fs) (capacity : Nat) (kv data : Nat → UInt8) (nwritten : Nat) (path : Path)
    (offset : UInt64) (count : UInt32) : Routed × (Nat → UInt8) × Nat :=
  match route fs capacity path offset count with
  | .served first n => (.served first n, Bytes.write kv (4 * first) (4 * n) data, 4 * n)
  | r => (r, kv, nwritten)

/-- `wubu_kvfs_kernel_init`: the namespace and the number of elements of the tensor. -/
def wubuKvfsKernelInit (blockSize totalBlocks : UInt32) : Fs × Nat :=
  (wubuKvfsCreate blockSize totalBlocks, totalBlocks.toNat * blockSize.toNat)

/-! ## Mount tables -/

/-- Every mount ends within the tensor. -/
structure TableOk (blockSize totalBlocks : UInt32) (fs : Fs) : Prop where
  blockSize_eq : fs.blockSize = blockSize.toNat
  totalBlocks_eq : fs.totalBlocks = totalBlocks.toNat
  offset_lt : ∀ m ∈ fs.mounts, m.absOffset < 2 ^ 64
  limit_le : ∀ m ∈ fs.mounts, m.absLimit ≤ totalBlocks.toNat * blockSize.toNat

variable {fs fs' : Fs} {path : Path} {blockSize totalBlocks : UInt32} {offset : UInt64} {count : UInt32}

theorem mul_lt (a b : UInt32) : a.toNat * b.toNat < 2 ^ 64 := by
  have ha := a.toNat_lt
  have hb := b.toNat_lt
  calc a.toNat * b.toNat ≤ (2 ^ 32 - 1) * (2 ^ 32 - 1) := Nat.mul_le_mul (by omega) (by omega)
    _ < 2 ^ 64 := by decide

theorem insertLoop_table (h : UInt64) (idx p slot : Nat) (hfs : TableOk blockSize totalBlocks fs) :
    TableOk blockSize totalBlocks (insertLoop h idx p slot fs).2 := by
  induction p generalizing slot with
  | zero => exact hfs
  | succ p ih =>
    rw [insertLoop]
    split
    · exact ⟨hfs.blockSize_eq, hfs.totalBlocks_eq, hfs.offset_lt, hfs.limit_le⟩
    · exact ih _

theorem rehashLoop_table (h : UInt64) (idx p slot : Nat) (hfs : TableOk blockSize totalBlocks fs) :
    TableOk blockSize totalBlocks (rehashLoop h idx p slot fs) := by
  induction p generalizing slot with
  | zero => exact hfs
  | succ p ih =>
    rw [rehashLoop]
    split
    · exact ⟨hfs.blockSize_eq, hfs.totalBlocks_eq, hfs.offset_lt, hfs.limit_le⟩
    · exact ih _

theorem kvfsRehash_table (newSlots : Nat) (hfs : TableOk blockSize totalBlocks fs) :
    TableOk blockSize totalBlocks (kvfsRehash fs newSlots) := by
  rw [kvfsRehash]
  generalize fs.mounts.zipIdx = ms
  have hempty : TableOk blockSize totalBlocks { fs with
      hashKeys := fun _ => 0, hashVals := fun _ => 0, hashState := fun _ => .empty, nSlots := newSlots } :=
    ⟨hfs.blockSize_eq, hfs.totalBlocks_eq, hfs.offset_lt, hfs.limit_le⟩
  revert hempty
  generalize ({ fs with
    hashKeys := fun _ => 0, hashVals := fun _ => 0, hashState := fun _ => .empty, nSlots := newSlots } : Fs) = fs0
  intro hfs0
  induction ms generalizing fs0 with
  | nil => exact hfs0
  | cons m ms ih =>
    refine ih _ ?_
    dsimp only
    split
    · exact hfs0
    · exact rehashLoop_table _ _ _ _ hfs0

theorem newMount_limit (path : Path) (startBlock nBlocks : UInt32) (hfs : TableOk blockSize totalBlocks fs)
    (h : (startBlock + nBlocks).toNat ≤ fs.totalBlocks) :
    (newMount fs path startBlock nBlocks).absOffset < 2 ^ 64 ∧
      (newMount fs path startBlock nBlocks).absLimit ≤ totalBlocks.toNat * blockSize.toNat := by
  rw [hfs.totalBlocks_eq] at h
  rw [newMount, hfs.blockSize_eq]
  exact ⟨mul_lt startBlock blockSize, Nat.mul_le_mul_right _ h⟩

theorem step_table (call : Call) (hfs : TableOk blockSize totalBlocks fs) (h : step fs call = some fs') :
    TableOk blockSize totalBlocks fs' := by
  cases call with
  | mount path startBlock nBlocks =>
    obtain ⟨⟨done, fs1⟩, hmount, rfl⟩ := Option.map_eq_some_iff.1 h
    rw [wubuKvfsMount] at hmount
    split at hmount
    · cases hmount
      exact hfs
    · split at hmount
      · cases hmount
        exact hfs
      · rename_i hroom
        split at hmount
        · cases hmount
          exact hfs
        · cases hmount
        · obtain ⟨hoff, hlim⟩ := newMount_limit path startBlock nBlocks hfs (Nat.le_of_not_lt hroom)
          rw [← congrArg Prod.snd (Option.some.inj hmount)]
          refine insertLoop_table _ _ _ _ ?_
          have hnew : TableOk blockSize totalBlocks { fs with
              mounts := fs.mounts ++ [newMount fs path startBlock nBlocks]
              usedBlocks := (fs.usedBlocks + nBlocks.toNat) % 2 ^ 32
              nLive := fs.nLive + 1 } := by
            refine ⟨hfs.blockSize_eq, hfs.totalBlocks_eq, fun m hm => ?_, fun m hm => ?_⟩
            · rcases List.mem_append.1 hm with hm | hm
              · exact hfs.offset_lt m hm
              · exact List.mem_singleton.1 hm ▸ hoff
            · rcases List.mem_append.1 hm with hm | hm
              · exact hfs.limit_le m hm
              · exact List.mem_singleton.1 hm ▸ hlim
          split
          · exact kvfsRehash_table _ hnew
          · exact hnew
  | unmount path =>
    obtain ⟨⟨done, fs1⟩, hunmount, rfl⟩ := Option.map_eq_some_iff.1 h
    rw [wubuKvfsUnmount] at hunmount
    split at hunmount
    · cases hunmount
      exact hfs
    · split at hunmount
      · cases hunmount
      · rename_i slot _ m hm
        have hmem := List.mem_of_getElem? hm
        split at hunmount
        · cases hunmount
          exact hfs
        · cases hunmount
          refine ⟨hfs.blockSize_eq, hfs.totalBlocks_eq, fun m' hm' => ?_, fun m' hm' => ?_⟩
          · rcases List.mem_or_eq_of_mem_set hm' with hm' | rfl
            · exact hfs.offset_lt m' hm'
            · exact hfs.offset_lt m hmem
          · rcases List.mem_or_eq_of_mem_set hm' with hm' | rfl
            · exact hfs.limit_le m' hm'
            · exact hfs.limit_le m hmem

theorem create_table (blockSize totalBlocks : UInt32) :
    TableOk blockSize totalBlocks (wubuKvfsCreate blockSize totalBlocks) := by
  have hfs : TableOk blockSize totalBlocks (kvfsRehash
      { mounts := [], nLive := 0, blockSize := blockSize.toNat, totalBlocks := totalBlocks.toNat, usedBlocks := 0
        hashKeys := fun _ => 0, hashVals := fun _ => 0, hashState := fun _ => .empty, nSlots := 0 }
      (slotsLoop totalBlocks.toNat 8 16)) :=
    kvfsRehash_table _ ⟨rfl, rfl, fun m hm => (nomatch hm), fun m hm => nomatch hm⟩
  refine ⟨hfs.blockSize_eq, hfs.totalBlocks_eq, fun m hm => ?_, fun m hm => ?_⟩
  · rw [List.mem_singleton.1 hm]
    exact Nat.two_pow_pos 64
  · rw [List.mem_singleton.1 hm]

/-- Whatever has been mounted and unmounted. -/
theorem calls_table {calls : List Call} (hfs : TableOk blockSize totalBlocks fs) (h : calls.foldlM step fs = some fs') :
    TableOk blockSize totalBlocks fs' := by
  induction calls generalizing fs with
  | nil =>
    cases h
    exact hfs
  | cons call calls ih =>
    rw [List.foldlM_cons] at h
    obtain ⟨fs1, hstep, hrest⟩ := Option.bind_eq_some_iff.1 h
    exact ih (step_table call hfs hstep) hrest

/-! ## Staying in the mount -/

/-- **A read or write is refused, or stays within the mount** that the path resolves to, and so within the tensor. -/
def Confined (fs : Fs) (capacity : Nat) (path : Path) : Routed → Prop
  | .refused => True
  | .fault => False
  | .served first n => ∃ m, resolvedMount fs path = some m ∧ m.absOffset ≤ first ∧ first + n ≤ m.absLimit ∧
      first + n ≤ capacity

/-- **What is left of the mount is enough**: it is enough behind the place of the path and the offset of the caller;
or the path does not resolve, or the elements from its place on are more than the tensor has. -/
def Enough (fs : Fs) (capacity : Nat) (path : Path) (offset : UInt64) (count : UInt32) : Prop :=
  match wubuKvfsLookup fs path with
  | .unmounted => True
  | .fault => False
  | .found _ rel => ∀ m, resolvedMount fs path = some m →
      rel + offset.toNat / 4 + nFloats count ≤ m.absLimit - m.absOffset ∨
        capacity < ((m.absOffset + rel) % 2 ^ 64 + nFloats count) % 2 ^ 64

theorem nFloats_pos (count : UInt32) : 0 < nFloats count := by
  rw [nFloats]
  split
  · decide
  · omega

/-- The place of a path in its mount. -/
theorem lookup_rel {block rel : Nat} {m : Mount} (h : wubuKvfsLookup fs path = .found block rel)
    (hm : resolvedMount fs path = some m) : rel = 0 ∨ rel < (m.absLimit + 2 ^ 64 - m.absOffset) % 2 ^ 64 := by
  obtain ⟨idx, hidx, hget⟩ := Option.bind_eq_some_iff.1 hm
  rw [wubuKvfsLookup, hidx] at h
  dsimp only at h
  rw [hget] at h
  dsimp only at h
  split at h
  · split at h
    · cases h
    · rename_i hsize
      cases h
      exact Or.inr (Nat.mod_lt _ (by omega))
  · cases h
    exact Or.inl rfl

theorem route_confined {capacity : Nat} (hcap : capacity < 2 ^ 64)
    (hfs : ∀ m ∈ fs.mounts, m.absOffset < 2 ^ 64 ∧ m.absLimit ≤ capacity) :
    Confined fs capacity path (route fs capacity path offset count) ↔ Enough fs capacity path offset count := by
  rw [route, Enough]
  cases hlookup : wubuKvfsLookup fs path with
  | unmounted => simp [Confined]
  | fault => simp [Confined]
  | found block rel =>
    cases hm : resolvedMount fs path with
    | none => simp [Confined]
    | some m =>
      obtain ⟨idx, -, hget⟩ := Option.bind_eq_some_iff.1 hm
      obtain ⟨hoff, hlim⟩ := hfs m (List.mem_of_getElem? hget)
      have hrel := lookup_rel hlookup hm
      have hn := nFloats_pos count
      dsimp only
      split
      · rename_i hover
        refine ⟨fun _ m' hm' => Or.inr ?_, fun _ => trivial⟩
        rwa [← Option.some.inj hm']
      · rename_i hfits
        constructor
        · rintro ⟨m', hm', hlow, hhigh, -⟩ m'' hm''
          cases hm.symm.trans hm'
          cases hm''
          refine Or.inl ?_
          omega
        · intro henough
          have hroom := (henough m rfl).resolve_right hfits
          exact ⟨m, hm, by omega, by omega, by omega⟩

variable {capacity n : Nat} {kv data : Nat → UInt8}

theorem wubuKvfsRouteRead_fst (nread : Nat) :
    (wubuKvfsRouteRead fs capacity kv data nread path offset count).1 = route fs capacity path offset count := by
  rw [wubuKvfsRouteRead]
  split
  · rename_i h
    exact h.symm
  · rfl

theorem wubuKvfsRouteWrite_fst (nwritten : Nat) :
    (wubuKvfsRouteWrite fs capacity kv data nwritten path offset count).1 = route fs capacity path offset count := by
  rw [wubuKvfsRouteWrite]
  split
  · rename_i h
    exact h.symm
  · rfl

/-- **When reads and writes stay in their mount**: whatever has been mounted, if and only if what is left of the
mount is enough. -/
theorem route_confined_iff {calls : List Call}
    (h : calls.foldlM step (wubuKvfsKernelInit blockSize totalBlocks).1 = some fs) (kv data : Nat → UInt8) (n : Nat)
    (path : Path) (offset : UInt64) (count : UInt32) :
    (Confined fs (wubuKvfsKernelInit blockSize totalBlocks).2 path
        (wubuKvfsRouteRead fs (wubuKvfsKernelInit blockSize totalBlocks).2 kv data n path offset count).1 ∧
      Confined fs (wubuKvfsKernelInit blockSize totalBlocks).2 path
        (wubuKvfsRouteWrite fs (wubuKvfsKernelInit blockSize totalBlocks).2 kv data n path offset count).1) ↔
      Enough fs (wubuKvfsKernelInit blockSize totalBlocks).2 path offset count := by
  have htable := calls_table (create_table blockSize totalBlocks) h
  rw [wubuKvfsRouteRead_fst, wubuKvfsRouteWrite_fst, and_self]
  exact route_confined (mul_lt totalBlocks blockSize) fun m hm => ⟨htable.offset_lt m hm, htable.limit_le m hm⟩

/-- The path `/a`. -/
def pathA : Path := [slash, 0x61]

/-- Four of 64 blocks, of 16 elements each, are mounted at `/a`, and the last element is read and written. -/
theorem route_confined_iff_a : ∃ fs, [Call.mount pathA 0 4].foldlM step (wubuKvfsKernelInit 16 64).1 = some fs ∧
    Confined fs 1024 pathA (wubuKvfsRouteRead fs 1024 (fun _ => 0) (fun _ => 0) 0 pathA 252 4).1 ∧
    Confined fs 1024 pathA (wubuKvfsRouteWrite fs 1024 (fun _ => 0) (fun _ => 0) 0 pathA 252 4).1 := by
  have hmount : ∃ fs, [Call.mount pathA 0 4].foldlM step (wubuKvfsKernelInit 16 64).1 = some fs ∧
      wubuKvfsLookup fs pathA = .found 0 0 ∧
      (resolvedMount fs pathA).map (fun m => m.absLimit - m.absOffset) = some 64 := ⟨_, rfl, rfl, rfl⟩
  obtain ⟨fs, hfs, hlook, hroom⟩ := hmount
  refine ⟨fs, hfs, (route_confined_iff hfs (fun _ => 0) (fun _ => 0) 0 pathA 252 4).2 ?_⟩
  rw [Enough, hlook]
  intro m hm
  rw [hm] at hroom
  have hlast : 0 + (252 : UInt64).toNat / 4 + nFloats 4 ≤ 64 := by decide
  exact Or.inl (Nat.le_trans hlast (Nat.le_of_eq (Option.some.inj hroom).symm))

/-- **The element behind the mount is read and written**, with an offset of as many bytes as the mount has. -/
theorem route_behind_mount : ∃ fs, [Call.mount pathA 0 4].foldlM step (wubuKvfsKernelInit 16 64).1 = some fs ∧
    (resolvedMount fs pathA).map (fun m => (m.absOffset, m.absLimit)) = some (0, 64) ∧
    (wubuKvfsRouteRead fs 1024 (fun _ => 0) (fun _ => 0) 0 pathA 256 4).1 = .served 64 1 ∧
    (wubuKvfsRouteWrite fs 1024 (fun _ => 0) (fun _ => 0) 0 pathA 256 4).1 = .served 64 1 ∧
    ¬Confined fs 1024 pathA (.served 64 1) := by
  have hmount : ∃ fs, [Call.mount pathA 0 4].foldlM step (wubuKvfsKernelInit 16 64).1 = some fs ∧
      (resolvedMount fs pathA).map (fun m => (m.absOffset, m.absLimit)) = some (0, 64) ∧
      route fs 1024 pathA 256 4 = .served 64 1 := ⟨_, rfl, by decide, by decide⟩
  obtain ⟨fs, hfs, hm, hroute⟩ := hmount
  refine ⟨fs, hfs, hm, ?_, ?_, ?_⟩
  · rw [wubuKvfsRouteRead_fst, hroute]
  · rw [wubuKvfsRouteWrite_fst, hroute]
  · rintro ⟨m, hres, -, hle, -⟩
    rw [hres] at hm
    have hlimit : m.absLimit = 64 := congrArg Prod.snd (Option.some.inj hm)
    omega

end WuBuOS.Kvfs
