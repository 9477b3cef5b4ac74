import WuBuOS.Kernel.Fat32.Chain
import WuBuOS.Kernel.Fat32.File

/-!
# What is found in a directory

As long as no request fails, `fat32_find` depends on nothing but what the clusters of the directory
hold: `lookup`.  If it finds an entry, then it finds the same one after its size and its times have been
changed, with the new size (`lookup_spec`).  That is what closing a file does to its entry
(`fat32Close_ok`).
-/

namespace WuBuOS.Fat32

open Bytes
open Trail (Path)

variable {fs fs' : Fs} {buf buf' : Buf} {c i n : Nat} {name : List UInt8} {lfn : Lfn} {info : FileInfo}

/-! ## Slots -/

/-- The slot is the same in both buffers. -/
def SameSlot (buf buf' : Buf) (i : Nat) : Prop :=
  ∀ o < dirEntrySize, buf' (i * dirEntrySize + o) = buf (i * dirEntrySize + o)

/-- The entry is the same in both buffers, but perhaps for its times and its size. -/
def SameEntry (buf buf' : Buf) (i : Nat) : Prop :=
  ∀ o, o < 18 ∨ (20 ≤ o ∧ o < 22) ∨ (26 ≤ o ∧ o < 28) →
    buf' (i * dirEntrySize + o) = buf (i * dirEntrySize + o)

theorem slotField_congr {o : Nat} (h : ∀ k < n, buf' (i * dirEntrySize + (o + k)) = buf (i * dirEntrySize + (o + k))) :
    slotField buf' i o n = slotField buf i o n := by
  refine get_shift fun k hk => ?_
  rw [Nat.add_assoc]
  exact h k hk

theorem SameSlot.field (h : SameSlot buf buf' i) {o : Nat} (ho : o + n ≤ dirEntrySize) :
    slotField buf' i o n = slotField buf i o n :=
  slotField_congr fun k hk => h (o + k) (by omega)

theorem SameSlot.entry (h : SameSlot buf buf' i) : SameEntry buf buf' i := fun o ho =>
  h o (by rw [dirEntrySize]; omega)

theorem SameEntry.name83 (h : SameEntry buf buf' i) : slotName83 buf' i = slotName83 buf i :=
  List.map_congr_left fun k hk => h k (Or.inl ((List.mem_range.1 hk).trans (by decide)))

theorem SameEntry.entryName (h : SameEntry buf buf' i) (lfn : Lfn) : entryName buf' i lfn = entryName buf i lfn := by
  rw [Fat32.entryName, Fat32.entryName, h.name83]

theorem lfnCharPos_le {j : Nat} (h : j < lfnChars) : lfnCharPos j + 2 ≤ dirEntrySize := by
  rw [lfnChars] at h
  rw [lfnCharPos, dirEntrySize]
  split
  · omega
  · split <;> omega

theorem SameSlot.copyLfn (h : SameSlot buf buf' i) (ord : Nat) {j : Nat} (hj : n + j ≤ lfnChars)
    (lfn : Lfn) : copyLfn buf' i ord n j lfn = copyLfn buf i ord n j lfn := by
  induction n generalizing j lfn with
  | zero => rfl
  | succ n ih =>
    rw [Fat32.copyLfn, Fat32.copyLfn, h.field (lfnCharPos_le (by omega))]
    simp only [ih (show n + (j + 1) ≤ lfnChars by omega)]

theorem SameSlot.findSlot (h : SameSlot buf buf' i) : findSlot buf' c name i lfn = findSlot buf c name i lfn := by
  have hread : readLfn buf' i lfn = readLfn buf i lfn := by
    rw [readLfn, readLfn, h.field (by decide), h.copyLfn _ (Nat.le_refl _)]
  have hinfo : slotInfo buf' c i lfn = slotInfo buf c i lfn := by
    rw [slotInfo, slotInfo, h.entry.entryName, h.field (by decide), h.field (by decide),
      h.field (by decide), h.field (by decide)]
  rw [Fat32.findSlot, Fat32.findSlot, h.field (by decide), h.field (by decide), hread, h.entry.entryName, hinfo]

theorem findSlot_hit (buf' : Buf) (h : findSlot buf c name i lfn = .hit info) :
    info = slotInfo buf c i lfn ∧ (SameEntry buf buf' i →
      findSlot buf' c name i lfn = .hit { info with fileSize := slotField buf' i 28 4 }) := by
  rw [findSlot] at h
  split at h
  · cases h
  rename_i h1
  split at h
  · cases h
  rename_i h2
  split at h
  · cases h
  rename_i h3
  split at h
  · cases h
  rename_i h4
  split at h
  · rename_i h5
    obtain rfl := Scan.hit.inj h
    refine ⟨rfl, fun hs => ?_⟩
    have hfield : ∀ o n, (o + n ≤ 18 ∨ (20 ≤ o ∧ o + n ≤ 22) ∨ (26 ≤ o ∧ o + n ≤ 28)) →
        slotField buf' i o n = slotField buf i o n := fun o n ho =>
      slotField_congr fun k hk => hs (o + k) (by omega)
    rw [findSlot, hfield 0 1 (by decide), hfield 11 1 (by decide), hs.entryName, if_neg h1, if_neg h2,
      if_neg h3, if_neg h4, if_pos h5]
    simp only [slotInfo, hs.entryName, hfield 20 2 (by decide), hfield 26 2 (by decide), hfield 11 1 (by decide)]
  · cases h

/-- **An entry found among slots**: it is found again if only its times and its size change, and the
slots before it do not. -/
theorem findSlots_hit (buf' : Buf) (h : findSlots buf c name n i lfn = .hit info) :
    i ≤ info.dirOffset ∧ info.dirOffset < i + n ∧ info.dirCluster = c ∧ (info.firstCluster =
          slotField buf info.dirOffset 20 2 * 2 ^ 16 + slotField buf info.dirOffset 26 2 ∧
        info.fileSize = slotField buf info.dirOffset 28 4) ∧
      ((∀ k, i ≤ k → k < info.dirOffset → SameSlot buf buf' k) → SameEntry buf buf' info.dirOffset →
        findSlots buf' c name n i lfn = .hit { info with fileSize := slotField buf' info.dirOffset 28 4 }) := by
  induction n generalizing i lfn with
  | zero => cases h
  | succ n ih =>
    rw [findSlots] at h
    split at h
    · rename_i lfn' hslot
      obtain ⟨hle, hlt, hc, hfirst, hagain⟩ := ih h
      refine ⟨by omega, by omega, hc, hfirst, fun hbefore hentry => ?_⟩
      rw [findSlots, (hbefore i (Nat.le_refl i) hle).findSlot, hslot]
      exact hagain (fun k hk => hbefore k (by omega)) hentry
    · obtain ⟨rfl, hagain⟩ := findSlot_hit buf' h
      refine ⟨Nat.le_refl i, by dsimp only [slotInfo]; omega, rfl, ⟨rfl, rfl⟩, fun _ hentry => ?_⟩
      rw [findSlots, hagain hentry]
      rfl

/-! ## Directories -/

/-- What `fat32_find` finds in the clusters of a directory, each with so many slots. -/
def lookup (slots : Nat) (d : Nat → Buf) (name : List UInt8) : List Nat → Lfn → Option FileInfo
  | [], _ => none
  | c :: ds, lfn =>
    match findSlots (d c) c name slots 0 lfn with
    | .stop => none
    | .hit info => some info
    | .more lfn => lookup slots d name ds lfn

variable {d d' : Nat → Buf} {ds : List Nat} {slots : Nat}

theorem lookup_congr (h : ∀ x ∈ ds, d' x = d x) : lookup slots d' name ds lfn = lookup slots d name ds lfn := by
  induction ds generalizing lfn with
  | nil => rfl
  | cons c ds ih =>
    rw [lookup, lookup, h c List.mem_cons_self]
    split
    · rfl
    · rfl
    · exact ih fun x hx => h x (List.mem_cons_of_mem c hx)

/-- **An entry found in a directory**: it is found again if only its times and its size change. -/
theorem lookup_spec (d' : Nat → Buf) (hnd : ds.Nodup) (h : lookup slots d name ds lfn = some info) :
    info.dirCluster ∈ ds ∧ info.dirOffset < slots ∧
      (info.firstCluster = slotField (d info.dirCluster) info.dirOffset 20 2 * 2 ^ 16 +
          slotField (d info.dirCluster) info.dirOffset 26 2 ∧
        info.fileSize = slotField (d info.dirCluster) info.dirOffset 28 4) ∧
      ((∀ x ∈ ds, x ≠ info.dirCluster → d' x = d x) →
        (∀ k < info.dirOffset, SameSlot (d info.dirCluster) (d' info.dirCluster) k) →
        SameEntry (d info.dirCluster) (d' info.dirCluster) info.dirOffset →
        lookup slots d' name ds lfn =
          some { info with fileSize := slotField (d' info.dirCluster) info.dirOffset 28 4 }) := by
  induction ds generalizing lfn with
  | nil => cases h
  | cons c ds ih =>
    obtain ⟨hc, hnd⟩ := List.nodup_cons.1 hnd
    rw [lookup] at h
    split at h
    · cases h
    · rename_i hit hslots
      cases h
      obtain ⟨-, hlt, rfl, hfirst, hagain⟩ := findSlots_hit (d' c) hslots
      refine ⟨List.mem_cons_self, by omega, hfirst, fun _ hbefore hentry => ?_⟩
      rw [lookup, hagain (fun k _ => hbefore k) hentry]
    · rename_i lfn' hslots
      obtain ⟨hmem, hlt, hfirst, hagain⟩ := ih hnd h
      refine ⟨List.mem_cons_of_mem c hmem, hlt, hfirst, fun hother hbefore hentry => ?_⟩
      have hne : c ≠ info.dirCluster := by
        rintro rfl
        exact hc hmem
      rw [lookup, hother c List.mem_cons_self hne, hslots]
      exact hagain (fun x hx => hother x (List.mem_cons_of_mem c hx)) hbefore hentry

/-- What is found in the directory that begins at a cluster. -/
def Fs.lookup (fs : Fs) (ds : List Nat) (name : List UInt8) : Option FileInfo :=
  Fat32.lookup (entriesPerCluster fs.vol) fs.data name ds noLfn

theorem SameShape.entriesPerCluster {v v' : Volume} (h : SameShape v v') :
    entriesPerCluster v' = entriesPerCluster v := by
  rw [Fat32.entriesPerCluster, Fat32.entriesPerCluster, h.bytesPerCluster]

theorem SameShape.dirOrRoot {v v' : Volume} (h : SameShape v v') (dir : Nat) : dirOrRoot v' dir = dirOrRoot v dir := by
  rw [Fat32.dirOrRoot, Fat32.dirOrRoot, h.rootCluster]

theorem dirOrRoot_dirOrRoot (vol : Volume) (dir : Nat) : dirOrRoot vol (dirOrRoot vol dir) = dirOrRoot vol dir := by
  rw [dirOrRoot, dirOrRoot]
  split
  · split <;> rfl
  · rfl

theorem Fs.lookup_congr (hshape : SameShape fs.vol fs'.vol) (h : ∀ x ∈ ds, fs'.data x = fs.data x) :
    fs'.lookup ds name = fs.lookup ds name := by
  rw [Fs.lookup, Fs.lookup, hshape.entriesPerCluster]
  exact Fat32.lookup_congr h

/-- **What is found along the links**, if they lead to it, or to an end. -/
theorem findLoop_path {fuel e : Nat} {l : Lfn} (hs : Sound fs) (h : Path (nextOf fs.table) (InVolume fs.vol) c ds e)
    (hend : lookup (entriesPerCluster fs.vol) fs.data name ds l = none → ¬IsCluster e) (hfuel : ds.length < fuel) :
    ∃ fs', findLoop name fuel c l fs = some (lookup (entriesPerCluster fs.vol) fs.data name ds l, fs') ∧
      Goes fs fs' fs.table fs.data := by
  induction ds generalizing fuel c l fs with
  | nil =>
    obtain ⟨fuel, rfl⟩ := Nat.exists_eq_add_of_lt hfuel
    obtain rfl : c = e := h
    refine ⟨fs, ?_, .refl hs⟩
    rw [findLoop, if_neg (hend rfl)]
    rfl
  | cons x ds ih =>
    obtain ⟨fuel, rfl⟩ : ∃ k, fuel = k + 1 := Nat.exists_eq_add_of_le' (Nat.zero_lt_of_lt hfuel)
    obtain ⟨rfl, hc, htail⟩ := h
    obtain ⟨hr, hg1⟩ := readCluster_ok hs hc.1
    rw [findLoop, if_pos (hs.isCluster hc), bind_run (lift_run hr)]
    rw [lookup] at hend ⊢
    dsimp only
    rw [bind_run (get_run _), hg1.shape.entriesPerCluster]
    cases hslots : findSlots (fs.data c) c name (entriesPerCluster fs.vol) 0 l with
    | stop | hit => exact ⟨_, rfl, hg1⟩
    | more lfn' =>
      rw [hslots] at hend
      obtain ⟨fs2, hnext, hg2⟩ := fat32NextCluster_goes hg1.sound (hg1.shape.inVolume.2 hc)
      rw [hg1.table] at hnext
      have hg := hg1.on hg2
      obtain ⟨fs', hl, hg'⟩ := ih (l := lfn') hg.sound (hg.path htail)
        (by rwa [hg.shape.entriesPerCluster, hg.data]) (Nat.lt_of_succ_lt_succ hfuel)
      rw [hg.shape.entriesPerCluster, hg.data] at hl
      exact ⟨fs', (bind_run (lift_run hnext)).trans hl, hg.on hg'⟩

theorem fat32Find_path {dir e : Nat} (hs : Sound fs)
    (h : Path (nextOf fs.table) (InVolume fs.vol) (dirOrRoot fs.vol dir) ds e)
    (hend : fs.lookup ds name = none → ¬IsCluster e) (hlen : ds.length < maxSteps) :
    ∃ fs', fat32Find dir name fs = some (fs.lookup ds name, fs') ∧ Goes fs fs' fs.table fs.data := by
  obtain ⟨hm, hg⟩ := malloc_ok hs
  obtain ⟨fs', hl, hg'⟩ := findLoop_path (l := noLfn) hg.sound (hg.path h)
    (by rwa [hg.shape.entriesPerCluster, hg.data]) hlen
  rw [hg.shape.entriesPerCluster, hg.data] at hl
  refine ⟨fs', ?_, hg.on hg'⟩
  rw [fat32Find, bind_run (get_run _), bind_run (lift_run hm)]
  exact hl

/-- **`fat32_find`** finds what is in the directory. -/
theorem fat32Find_ok {dir : Nat} (name : List UInt8) (hs : Sound fs)
    (hch : Chain fs.vol fs.table (dirOrRoot fs.vol dir) ds) :
    ∃ fs', fat32Find dir name fs = some (fs.lookup ds name, fs') ∧ Goes fs fs' fs.table fs.data :=
  fat32Find_path hs hch.toEnd (fun _ => by decide) (hch.length_lt hs)

/-- A caller has looked the number up before, which makes no difference. -/
theorem fat32Find_dirOrRoot {dir : Nat} (name : List UInt8) (hs : Sound fs)
    (hch : Chain fs.vol fs.table (dirOrRoot fs.vol dir) ds) : ∃ fs',
    fat32Find (dirOrRoot fs.vol dir) name fs = some (fs.lookup ds name, fs') ∧ Goes fs fs' fs.table fs.data :=
  fat32Find_ok name hs (by rwa [dirOrRoot_dirOrRoot])

/-! ## Closing a file -/

theorem closeSlot_other {fp : File} {now : Nat × Nat} {x : Nat} (h : x < fp.dirOffset * dirEntrySize + 18 ∨
      (fp.dirOffset * dirEntrySize + 20 ≤ x ∧ x < fp.dirOffset * dirEntrySize + 22) ∨
      (fp.dirOffset * dirEntrySize + 26 ≤ x ∧ x < fp.dirOffset * dirEntrySize + 28) ∨
      fp.dirOffset * dirEntrySize + 32 ≤ x) : closeSlot buf fp now x = buf x := by
  simp only [closeSlot, setSlotField, put]
  rw [write_outside (by omega), write_outside (by omega), write_outside (by omega), write_outside (by omega)]

theorem closeSlot_fileSize {fp : File} {now : Nat × Nat} :
    slotField (closeSlot buf fp now) fp.dirOffset 28 4 = fp.fileSize % 2 ^ 32 := by
  have h256 : 256 ^ 4 = 2 ^ 32 := by decide
  simp only [closeSlot, setSlotField, slotField]
  rw [get_put_outside (by omega), get_put_outside (by omega), get_put_outside (by omega), get_put, h256]

/-- A file in use, closed: its entry has its size, and nothing else has changed. -/
theorem fat32Close_ok {fp : File} (hs : Sound fs) (hmode : fp.writeMode = true)
    (hfirst : 2 ≤ fp.firstCluster) (hdir : 2 ≤ fp.dirCluster) :
    ∃ now, Goes fs (fat32Close fp fs) fs.table
      (Function.update fs.data fp.dirCluster
        (fs.vol.clip (closeSlot (fs.data fp.dirCluster) fp now))) := by
  obtain ⟨hm, hg1⟩ := malloc_ok hs
  obtain ⟨hr, hg2⟩ := readCluster_ok hg1.sound hdir
  rw [hg1.table, hg1.data] at hg2
  rw [hg1.data] at hr
  have hg3 := dosNow_ok hg2.sound
  rw [hg2.table, hg2.data] at hg3
  obtain ⟨fs4, hw, hg4⟩ := writeCluster_ok hg3.sound hdir
    (closeSlot (fs.data fp.dirCluster) fp (dosNow fs.ask.2.ask.2).1)
  rw [hg3.table, hg3.data] at hg4
  have hg := (hg1.trans hg2).trans hg3
  have hclose : fat32Close fp fs = fs4 := by
    rw [fat32Close, if_pos ⟨hmode, hfirst, hdir⟩]
    simp only [hm, hr, hw]
  refine ⟨(dosNow fs.ask.2.ask.2).1, ?_⟩
  rw [hclose, ← hg.shape.clip]
  exact hg.trans hg4

/-- **The entry of a file that has been closed** is found as before, with the size of the file. -/
theorem lookup_close {fp : File} (hs : Sound fs) (hnd : ds.Nodup) (hmode : fp.writeMode = true)
    (hfirst : 2 ≤ fp.firstCluster) (hdir : 2 ≤ fp.dirCluster)
    (h : fs.lookup ds name = some info) (hc : info.dirCluster = fp.dirCluster)
    (ho : info.dirOffset = fp.dirOffset) :
    (fat32Close fp fs).lookup ds name = some { info with fileSize := fp.fileSize % 2 ^ 32 } := by
  obtain ⟨now, hg⟩ := fat32Close_ok hs hmode hfirst hdir
  obtain ⟨-, hlt, -, hagain⟩ := lookup_spec (fat32Close fp fs).data hnd h
  have hslots : entriesPerCluster fs.vol * dirEntrySize ≤ fs.vol.bytesPerCluster :=
    Nat.div_mul_le_self ..
  have hend : (info.dirOffset + 1) * dirEntrySize ≤ fs.vol.bytesPerCluster :=
    (Nat.mul_le_mul_right _ hlt).trans hslots
  rw [Nat.succ_mul] at hend
  -- in the part of the cluster up to the entry, clipping changes nothing
  have hdata : ∀ x < (info.dirOffset + 1) * dirEntrySize, (fat32Close fp fs).data info.dirCluster x =
        closeSlot (fs.data info.dirCluster) fp now x := by
    intro x hx
    rw [Nat.succ_mul] at hx
    rw [hg.data, hc, Function.update_self, Volume.clip, if_pos (hx.trans_le hend)]
  rw [Fs.lookup, hg.shape.entriesPerCluster, hagain]
  · congr 2
    refine (get_congr fun x _ hx => hdata x ?_).trans ?_
    · rw [Nat.succ_mul]
      simp only [dirEntrySize] at *
      omega
    · rw [ho]
      exact closeSlot_fileSize
  · intro x _ hne
    rw [hg.data, Function.update_of_ne (by rwa [← hc])]
  · intro k hk o ho'
    have hk' := Nat.mul_le_mul_right dirEntrySize (Nat.succ_le_of_lt hk)
    rw [Nat.succ_mul] at hk'
    rw [hdata _ (by rw [Nat.succ_mul]; omega), closeSlot_other]
    rw [← ho]
    omega
  · intro o ho'
    rw [hdata _ (by rw [Nat.succ_mul, dirEntrySize]; omega), closeSlot_other]
    rw [← ho]
    omega

end WuBuOS.Fat32
