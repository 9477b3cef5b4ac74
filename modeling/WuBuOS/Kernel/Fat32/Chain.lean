import WuBuOS.Kernel.Fat32.FatCache
import WuBuOS.Kernel.Fat32.Dir
import WuBuOS.Lib.Linked
import WuBuOS.Lib.Trail

/-!
# What the clusters of a volume hold

As long as no request fails, all that matters of a volume is its table and what its clusters hold:
`fs.table`, the low bits of the logical table, and `fs.data`, a buffer for each cluster.  Neither
depends on what is in the cache.  `Goes fs fs' t d` says that a function has led from `fs` to `fs'`, a
volume that is still `Sound`, whose table is `t` and whose data is `d`.

Each function of `fat32_cluster.c` has a lemma that gives its result and the table and the data
afterwards.  A chain is a list of clusters in use, linked through the table: `Chain`.
-/

namespace WuBuOS.Fat32

open Bytes Linked Trail
open Function (update update_of_ne update_self)

variable {x : Nat}

/-! ## Table and data -/

/-- The table, as `fat_read_entry` returns it. -/
def Fs.table (fs : Fs) (c : Nat) : Nat :=
  if c / entriesPerSector < fs.vol.sectorsPerFat then low28 (fs.entry c) else 0

theorem Fs.table_eq {fs : Fs} {c : Nat} (h : InTable fs.vol c) : fs.table c = low28 (fs.entry c) :=
  if_pos h

/-- What a cluster holds. -/
def Fs.data (fs : Fs) (c : Nat) : Buf :=
  if 2 ≤ c then sectors fs.disk (fat32ClusterToLba fs.vol c) fs.vol.sectorsPerCluster
  else fun _ => 0

/-- A cluster of the volume. -/
def InVolume (vol : Volume) (c : Nat) : Prop := 2 ≤ c ∧ c < vol.totalClusters

/-- **The volume can be relied on**: its cache is consistent, no request fails, and its parts fit
together as `fat32_mount` computes them, with a table for all of its clusters. -/
structure Sound (fs : Fs) : Prop where
  consistent : Consistent fs
  noErrors : NoErrors fs
  dataLba : fs.vol.dataLba = fs.vol.fat2Lba + fs.vol.sectorsPerFat
  bytesPerCluster : fs.vol.bytesPerCluster = fs.vol.sectorsPerCluster * sectorSize
  sectorsPerCluster : 0 < fs.vol.sectorsPerCluster
  table : ∀ c, InVolume fs.vol c → InTable fs.vol c
  clusters : fs.vol.totalClusters ≤ clusterEoc

/-- A function has led to a sound volume of the same shape, with this table and this data. -/
structure Goes (fs fs' : Fs) (t : Nat → Nat) (d : Nat → Buf) : Prop where
  sound : Sound fs'
  shape : SameShape fs.vol fs'.vol
  table : fs'.table = t
  data : fs'.data = d

variable {fs fs' fs'' : Fs} {t t' : Nat → Nat} {d d' : Nat → Buf} {c v : Nat}

theorem Goes.refl (h : Sound fs) : Goes fs fs fs.table fs.data := ⟨h, .refl _, rfl, rfl⟩

theorem Goes.trans (h : Goes fs fs' t d) (h' : Goes fs' fs'' t' d') : Goes fs fs'' t' d' :=
  ⟨h'.sound, h.shape.trans h'.shape, h'.table, h'.data⟩

/-- A function that only reads has gone on from there. -/
theorem Goes.on (h : Goes fs fs' t d) (h' : Goes fs' fs'' fs'.table fs'.data) : Goes fs fs'' t d :=
  ⟨h'.sound, h.shape.trans h'.shape, h'.table.trans h.table, h'.data.trans h.data⟩

theorem SameShape.inVolume (h : SameShape fs.vol fs'.vol) : InVolume fs'.vol c ↔ InVolume fs.vol c := by
  rw [InVolume, InVolume, h.totalClusters]

theorem SameShape.clusterToLba (h : SameShape fs.vol fs'.vol) (c : Nat) :
    fat32ClusterToLba fs'.vol c = fat32ClusterToLba fs.vol c := by
  rw [fat32ClusterToLba, fat32ClusterToLba, h.dataLba, h.sectorsPerCluster]

/-- Whatever keeps the shape and the cache consistent keeps the volume sound. -/
theorem Sound.of_frame (h : Sound fs) (hf : Frame fs fs') : Sound fs' where
  consistent := hf.consistent
  noErrors := h.noErrors.later hf.env
  dataLba := by rw [hf.shape.dataLba, hf.shape.fat2Lba, hf.shape.sectorsPerFat, h.dataLba]
  bytesPerCluster := by
    rw [hf.shape.bytesPerCluster, hf.shape.sectorsPerCluster, h.bytesPerCluster]
  sectorsPerCluster := by rw [hf.shape.sectorsPerCluster]; exact h.sectorsPerCluster
  table := fun c hc => hf.shape.inTable.2 (h.table c (hf.shape.inVolume.1 hc))
  clusters := by rw [hf.shape.totalClusters]; exact h.clusters

/-- The data area is not part of the table. -/
theorem Sound.data_outside (h : Sound fs) (hc : 2 ≤ c) : (fs.vol.fat2Lba + fs.vol.sectorsPerFat) * sectorSize ≤
      fat32ClusterToLba fs.vol c * sectorSize := by
  rw [fat32ClusterToLba, if_neg (Nat.not_lt.2 hc), h.dataLba]
  exact Nat.mul_le_mul_right _ (Nat.le_add_right _ _)

theorem Frame.data_eq (h : Sound fs) (hf : Frame fs fs') : fs'.data = fs.data := by
  funext c i
  rw [Fs.data, Fs.data]
  split
  · rename_i hc
    rw [sectors, sectors, hf.shape.clusterToLba, hf.shape.sectorsPerCluster]
    split
    · exact hf.outside _ (Or.inr ((h.data_outside hc).trans (Nat.le_add_right _ _)))
    · rfl
  · rfl

theorem Keeps.table (hk : Keeps fs fs') : fs'.table = fs.table := by
  funext c
  rw [Fs.table, Fs.table, hk.shape.sectorsPerFat]
  split
  · rw [hk.entry c ‹_›]
  · rfl

theorem Keeps.goes (h : Sound fs) (hk : Keeps fs fs') : Goes fs fs' fs.table fs.data where
  sound := h.of_frame hk.toFrame
  shape := hk.shape
  table := hk.table
  data := hk.toFrame.data_eq h

theorem Stores.goes (h : Sound fs) (hst : Stores fs fs' c v) (hc : InTable fs.vol c) :
    Goes fs fs' (update fs.table c (low28 v)) fs.data where
  sound := h.of_frame hst.toFrame
  shape := hst.shape
  table := by
    funext x
    rw [Fs.table, hst.shape.sectorsPerFat]
    rcases eq_or_ne x c with rfl | hx
    · rw [if_pos (show x / entriesPerSector < fs.vol.sectorsPerFat from hc), hst.entry x hc, if_pos rfl,
        low28_mergeEntry, update_self]
    · rw [update_of_ne hx, Fs.table]
      split
      · rw [hst.entry x ‹_›, if_neg hx]
      · rfl
  data := hst.toFrame.data_eq h

/-! ## Requests -/

theorem Sound.ask (h : Sound fs) : Goes fs fs.ask.2 fs.table fs.data := h.consistent.ask.goes h

theorem malloc_ok (h : Sound fs) : malloc fs = (some fs.ask.1.junk, fs.ask.2) ∧ Goes fs fs.ask.2 fs.table fs.data :=
  ⟨by rw [malloc, if_pos (show fs.ask.1.ok = true from h.noErrors 0)], h.ask⟩

theorem dosNow_ok (h : Sound fs) : Goes fs (dosNow fs).2 fs.table fs.data := h.ask

theorem readCluster_ok (h : Sound fs) (hc : 2 ≤ c) :
    readCluster c fs = (some (fs.data c), fs.ask.2) ∧ Goes fs fs.ask.2 fs.table fs.data := by
  refine ⟨?_, h.ask⟩
  rw [readCluster, blkRead, if_pos (show fs.ask.1.ok = true from h.noErrors 0), Fs.data, if_pos hc]

/-- What is written to a cluster, as far as there is room in it. -/
def Volume.clip (vol : Volume) (buf : Buf) : Buf := fun i => if i < vol.bytesPerCluster then buf i else 0

theorem SameShape.clip {v v' : Volume} (h : SameShape v v') : v'.clip = v.clip := by
  funext buf i
  rw [Volume.clip, Volume.clip, h.bytesPerCluster]

/-- Two clusters do not meet. -/
theorem clusterToLba_apart {vol : Volume} (hc : 2 ≤ c) (hx : 2 ≤ x) (hne : x ≠ c) :
    fat32ClusterToLba vol x + vol.sectorsPerCluster ≤ fat32ClusterToLba vol c ∨
      fat32ClusterToLba vol c + vol.sectorsPerCluster ≤ fat32ClusterToLba vol x := by
  rw [fat32ClusterToLba, fat32ClusterToLba, if_neg (Nat.not_lt.2 hc), if_neg (Nat.not_lt.2 hx)]
  obtain ⟨k, rfl⟩ := Nat.exists_eq_add_of_le hc
  obtain ⟨l, rfl⟩ := Nat.exists_eq_add_of_le hx
  rw [Nat.add_sub_cancel_left, Nat.add_sub_cancel_left]
  rcases Nat.lt_or_gt_of_ne hne with h | h
  · have := Nat.mul_le_mul_right vol.sectorsPerCluster (show l + 1 ≤ k by omega)
    rw [Nat.succ_mul] at this
    omega
  · have := Nat.mul_le_mul_right vol.sectorsPerCluster (show k + 1 ≤ l by omega)
    rw [Nat.succ_mul] at this
    omega

/-- The disk changes behind the table. -/
theorem Consistent.setDisk (h : Consistent fs) {disk : Buf} (env : Nat → Answer)
    (hdisk : ∀ x < (fs.vol.fat2Lba + fs.vol.sectorsPerFat) * sectorSize, disk x = fs.disk x) :
    Consistent ⟨fs.vol, disk, env⟩ ∧ ∀ c, InTable fs.vol c → Fs.entry ⟨fs.vol, disk, env⟩ c = fs.entry c := by
  have hfat2 := h.fat2
  have htab : ∀ c, InTable fs.vol c → tableEntry disk fs.vol.fat1Lba c = tableEntry fs.disk fs.vol.fat1Lba c := by
    intro c hc
    have hc : c / entriesPerSector < fs.vol.sectorsPerFat := hc
    have hm : c % entriesPerSector < 128 := Nat.mod_lt _ (by decide)
    refine get_congr fun x _ hx => hdisk x ?_
    have hle : fs.vol.fat1Lba + c / entriesPerSector + 1 ≤ fs.vol.fat2Lba + fs.vol.sectorsPerFat :=
      Nat.succ_le_of_lt (by rw [hfat2]; exact Nat.lt_add_right _ (Nat.add_lt_add_left hc _))
    refine Nat.lt_of_lt_of_le ?_ (Nat.mul_le_mul_right sectorSize hle)
    rw [Nat.succ_mul]
    exact hx.trans_le (by simp only [sectorSize]; omega)
  have hentry : ∀ c, InTable fs.vol c → Fs.entry ⟨fs.vol, disk, env⟩ c = fs.entry c := by
    intro c hc
    rw [Fs.entry, Fs.entry]
    dsimp only
    split
    · split
      · rfl
      · exact htab c hc
    · exact htab c hc
  refine ⟨⟨h.fat2, h.dirty, h.empty, fun c hc hns => ?_⟩, hentry⟩
  rw [hentry c hc]
  exact (htab c hc).trans (h.synced c hc hns)

/-- **A cluster is written**: nothing else changes. -/
theorem writeCluster_ok (h : Sound fs) (hc : 2 ≤ c) (buf : Buf) : ∃ fs', writeCluster c buf fs = (true, fs') ∧
      Goes fs fs' fs.table (update fs.data c (fs.vol.clip buf)) := by
  have hok : fs.ask.1.ok = true := h.noErrors 0
  refine ⟨(writeCluster c buf fs).2, Prod.ext hok rfl, ?_⟩
  have hfs' : (writeCluster c buf fs).2 = ⟨fs.vol, write fs.disk
      (fat32ClusterToLba fs.vol c * sectorSize) (fs.vol.sectorsPerCluster * sectorSize) buf,
      fs.ask.2.env⟩ := by
    rw [writeCluster, blkWrite, if_pos hok]
    rfl
  rw [hfs']
  have hlow : ∀ x < (fs.vol.fat2Lba + fs.vol.sectorsPerFat) * sectorSize,
      write fs.disk (fat32ClusterToLba fs.vol c * sectorSize)
        (fs.vol.sectorsPerCluster * sectorSize) buf x = fs.disk x := fun x hx =>
    write_outside (Or.inl (hx.trans_le (h.data_outside hc)))
  obtain ⟨hcons, hentry⟩ := h.consistent.setDisk fs.ask.2.env hlow
  refine ⟨⟨hcons, fun n => h.noErrors (n + 1), h.dataLba, h.bytesPerCluster, h.sectorsPerCluster,
    h.table, h.clusters⟩, .refl _, ?_, ?_⟩
  · funext x
    rw [Fs.table, Fs.table]
    split
    · rw [hentry x ‹_›]
    · rfl
  · funext x i
    rcases eq_or_ne x c with rfl | hx
    · rw [update_self, Fs.data, if_pos hc, sectors, Volume.clip, h.bytesPerCluster]
      split
      · exact write_inside ‹_›
      · rfl
    · rw [update_of_ne hx, Fs.data, Fs.data]
      split
      · rename_i hx2
        rw [sectors, sectors]
        split
        · rename_i hi
          refine write_outside ?_
          rcases clusterToLba_apart hc hx2 hx with hap | hap
          · have := Nat.mul_le_mul_right sectorSize hap
            rw [Nat.add_mul] at this
            exact Or.inl (Nat.lt_of_lt_of_le (Nat.add_lt_add_left hi _) this)
          · have := Nat.mul_le_mul_right sectorSize hap
            rw [Nat.add_mul] at this
            exact Or.inr (Nat.le_add_right_of_le this)
        · rfl
      · rfl

/-! ## Entries and chains -/

theorem low28_of_lt (h : v < 2 ^ 28) : low28 v = v := by
  rw [low28_eq]
  exact Nat.mod_eq_of_lt h

theorem fatReadEntry_table (h : Sound fs) (hin : InTable fs.vol c) :
    ∃ fs', fatReadEntry c fs = (some (fs.table c), fs') ∧ Goes fs fs' fs.table fs.data := by
  refine ⟨(fatReadEntry c fs).2, Prod.ext ?_ rfl, (fatReadEntry_spec h.consistent hin).1.goes h⟩
  rw [fatReadEntry_ok h.consistent h.noErrors hin, Fs.table_eq hin]

theorem fatReadEntry_goes (h : Sound fs) (hc : InVolume fs.vol c) :
    ∃ fs', fatReadEntry c fs = (some (fs.table c), fs') ∧ Goes fs fs' fs.table fs.data :=
  fatReadEntry_table h (h.table c hc)

theorem fatWriteEntry_table (h : Sound fs) (hin : InTable fs.vol c) (v : Nat) :
    ∃ fs', fatWriteEntry c v fs = (true, fs') ∧ Goes fs fs' (update fs.table c (low28 v)) fs.data := by
  obtain ⟨hok, hst⟩ := fatWriteEntry_ok h.consistent h.noErrors hin v
  exact ⟨(fatWriteEntry c v fs).2, Prod.ext hok rfl, hst.goes h hin⟩

theorem fatWriteEntry_goes (h : Sound fs) (hc : InVolume fs.vol c) (v : Nat) :
    ∃ fs', fatWriteEntry c v fs = (true, fs') ∧ Goes fs fs' (update fs.table c (low28 v)) fs.data :=
  fatWriteEntry_table h (h.table c hc) v

/-- The next cluster, by the table. -/
def nextOf (t : Nat → Nat) (c : Nat) : Nat := if clusterEoc ≤ t c then 0 else t c

theorem fat32NextCluster_goes (h : Sound fs) (hc : InVolume fs.vol c) :
    ∃ fs', fat32NextCluster c fs = (nextOf fs.table c, fs') ∧ Goes fs fs' fs.table fs.data := by
  obtain ⟨fs', hr, hg⟩ := fatReadEntry_goes h hc
  refine ⟨fs', ?_, hg⟩
  rw [fat32NextCluster, if_neg (Nat.not_lt.2 hc.1), hr]
  rfl

/-- The clusters from `c` on: all of them are clusters of the volume and in use. -/
structure Chain (vol : Volume) (t : Nat → Nat) (c : Nat) (cs : List Nat) : Prop where
  list : IsList (nextOf t) 0 c cs
  inVolume : ∀ x ∈ cs, InVolume vol x
  used : ∀ x ∈ cs, t x ≠ 0

variable {vol : Volume} {cs : List Nat}

theorem Chain.congr (h : Chain fs.vol t c cs) (hshape : SameShape fs.vol fs'.vol)
    (ht : ∀ x ∈ cs, t' x = t x) : Chain fs'.vol t' c cs where
  list := h.list.congr fun x hx => by rw [nextOf, nextOf, ht x hx]
  inVolume := fun x hx => hshape.inVolume.2 (h.inVolume x hx)
  used := fun x hx => by rw [ht x hx]; exact h.used x hx

theorem Goes.chain (hg : Goes fs fs' fs.table d) (h : Chain fs.vol fs.table c cs) : Chain fs'.vol fs'.table c cs :=
  h.congr hg.shape fun _ _ => by rw [hg.table]

theorem Chain.tail (h : Chain vol t c (x :: cs)) : Chain vol t (nextOf t x) cs where
  list := h.list.2.2
  inVolume := fun y hy => h.inVolume y (List.mem_cons_of_mem x hy)
  used := fun y hy => h.used y (List.mem_cons_of_mem x hy)

/-- From one of its clusters on, a chain is a chain. -/
theorem Chain.suffix {pre : List Nat} (h : Chain vol t c (pre ++ x :: cs)) : Chain vol t x (x :: cs) where
  list := by
    obtain ⟨b, hb⟩ := h.list.append_tail
    obtain rfl : b = x := hb.1
    exact hb
  inVolume := fun y hy => h.inVolume y (List.mem_append_right _ hy)
  used := fun y hy => h.used y (List.mem_append_right _ hy)

theorem Chain.head (h : Chain vol t c (x :: cs)) : c = x := h.list.1

/-- A chain is a path to its end. -/
theorem Chain.toEnd (h : Chain vol t c cs) : Path (nextOf t) (InVolume vol) c cs 0 := by
  induction cs generalizing c with
  | nil => exact h.list
  | cons x cs ih => exact ⟨h.head, h.inVolume x List.mem_cons_self, ih h.tail⟩

theorem Goes.path {e : Nat} (hg : Goes fs fs' fs.table d) (h : Path (nextOf fs.table) (InVolume fs.vol) c cs e) :
    Path (nextOf fs'.table) (InVolume fs'.vol) c cs e := by
  have hlive : InVolume fs'.vol = InVolume fs.vol := funext fun x => propext hg.shape.inVolume
  rwa [hg.table, hlive]

/-- There are not more clusters than steps. -/
theorem length_lt_maxSteps (hs : Sound fs) (hnd : cs.Nodup) (hin : ∀ x ∈ cs, InVolume fs.vol x) :
    cs.length < maxSteps := by
  have hsub : cs.toFinset ⊆ Finset.range fs.vol.totalClusters := fun x hx =>
    Finset.mem_range.2 (hin x (List.mem_toFinset.1 hx)).2
  have hcard := Finset.card_le_card hsub
  rw [List.toFinset_card_of_nodup hnd, Finset.card_range] at hcard
  exact hcard.trans_lt (hs.clusters.trans_lt (by decide))

/-- A chain is shorter than a loop is run. -/
theorem Chain.length_lt (hs : Sound fs) (h : Chain fs.vol t c cs) : cs.length < maxSteps :=
  length_lt_maxSteps hs h.list.nodup h.inVolume

theorem Sound.isCluster (hs : Sound fs) (hc : InVolume fs.vol c) : IsCluster c :=
  ⟨hc.1, hc.2.trans_le hs.clusters⟩

/-- The test for the end of a chain. -/
theorem Chain.next_end (hs : Sound fs) (h : Chain fs.vol t c (x :: cs)) :
    (nextOf t x = 0 ∨ clusterEoc ≤ nextOf t x) ↔ cs = [] := by
  cases cs with
  | nil => exact iff_of_true (Or.inl h.tail.list) rfl
  | cons y cs =>
    have hy := hs.isCluster (h.tail.inVolume y List.mem_cons_self)
    rw [h.tail.head]
    refine iff_of_false ?_ (List.cons_ne_nil y cs)
    rintro (h0 | he)
    · exact absurd hy.1 (by rw [h0]; decide)
    · exact absurd hy.2 (Nat.not_lt.2 he)

/-! ## Allocation -/

/-- The clusters that are free. -/
def Fs.free (fs : Fs) : Finset Nat :=
  (Finset.range fs.vol.totalClusters).filter fun c => 2 ≤ c ∧ fs.table c = 0

theorem Fs.mem_free : c ∈ fs.free ↔ InVolume fs.vol c ∧ fs.table c = 0 := by
  rw [Fs.free, Finset.mem_filter, Finset.mem_range, InVolume]
  omega

/-- What is in a chain, and what is free. -/
theorem Chain.length_add_free (hs : Sound fs) (h : Chain fs.vol fs.table c cs) :
    cs.length + fs.free.card < maxSteps := by
  have hfree : ∀ x ∈ fs.free.toList, InVolume fs.vol x ∧ fs.table x = 0 := fun x hx =>
    Fs.mem_free.1 (Finset.mem_toList.1 hx)
  have hnd : (cs ++ fs.free.toList).Nodup := List.nodup_append'.2
    ⟨h.list.nodup, fs.free.nodup_toList, fun x hx hx' => h.used x hx (hfree x hx').2⟩
  rw [← Finset.length_toList, ← List.length_append]
  exact length_lt_maxSteps hs hnd (List.forall_mem_append.2 ⟨h.inVolume, fun x hx => (hfree x hx).1⟩)

/-- The scan finds a free cluster, or there is none among those still to be scanned. -/
theorem scanFree_first {n : Nat} (h : Sound fs) (hc : 2 ≤ c) (htot : 2 < fs.vol.totalClusters) :
    ∃ y k fs', scanFree 1 n c 0 0 fs = (some (y, k), fs') ∧ Goes fs fs' fs.table fs.data ∧
      (k = 1 ∧ y ∈ fs.free ∨ k = 0 ∧ ∀ x ∈ fs.free, ¬(c ≤ x ∧ x < c + n)) := by
  induction n generalizing c fs with
  | zero => exact ⟨0, 0, fs, rfl, .refl h, Or.inr ⟨rfl, fun x _ hx => by omega⟩⟩
  | succ n ih =>
    rw [scanFree]
    generalize hx : (if fs.vol.totalClusters ≤ c then 2 else c) = x
    have hxv : InVolume fs.vol x := by
      rw [← hx, InVolume]
      split <;> omega
    obtain ⟨fs', hr, hg⟩ := fatReadEntry_goes h hxv
    simp only [hr]
    by_cases hused : fs.table x = clusterFree
    · simp only [if_pos hused, if_pos, Nat.zero_add, Nat.le_refl]
      exact ⟨x, 1, fs', rfl, hg, Or.inl ⟨rfl, Fs.mem_free.2 ⟨hxv, hused⟩⟩⟩
    · have hfree : fs'.free = fs.free := by
        rw [Fs.free, Fs.free, hg.shape.totalClusters, hg.table]
      obtain ⟨y, k, fs'', hs, hg', hcase⟩ := ih (c := x + 1) hg.sound (Nat.le_succ_of_le hxv.1)
        (by rwa [hg.shape.totalClusters])
      rw [hfree] at hcase
      rw [if_neg hused]
      refine ⟨y, k, fs'', hs, hg.on hg', hcase.imp_right fun ⟨hk, hno⟩ => ⟨hk, fun z hz hrange => ?_⟩⟩
      obtain ⟨hzv, hz0⟩ := Fs.mem_free.1 hz
      rw [if_neg (Nat.not_le.2 (hrange.1.trans_lt hzv.2))] at hx
      have hne : z ≠ x := by
        rintro rfl
        exact hused hz0
      exact hno z hz (by omega)

/-- The hint and the count of free clusters are nothing the volume depends on. -/
theorem Sound.counts (h : Sound fs) (nextFree freeClusters : Nat) :
    Goes fs { fs with vol := { fs.vol with nextFree := nextFree, freeClusters := freeClusters } }
      fs.table fs.data :=
  ⟨⟨⟨h.consistent.fat2, h.consistent.dirty, h.consistent.empty, h.consistent.synced⟩, h.noErrors,
    h.dataLba, h.bytesPerCluster, h.sectorsPerCluster, h.table, h.clusters⟩,
    by constructor <;> rfl, rfl, rfl⟩

/-- **A cluster is allocated, or there is none.** -/
theorem fat32AllocClusters_spec (h : Sound fs) (htot : 2 < fs.vol.totalClusters) :
    ∃ c fs', fat32AllocClusters 1 0 fs = (c, fs') ∧ ((c = 0 ∧ fs.free.card = 0 ∧ Goes fs fs' fs.table fs.data) ∨
        (c ≠ 0 ∧ c ∈ fs.free ∧ Goes fs fs' (update fs.table c clusterEoc) fs.data)) := by
  obtain ⟨c, k, fs1, hs, hg1, ⟨rfl, hc⟩ | ⟨rfl, hno⟩⟩ := @scanFree_first fs 2 fs.vol.totalClusters h (Nat.le_refl 2) htot
  · have hcv := (Fs.mem_free.1 hc).1
    obtain ⟨fs2, hw, hg2⟩ := fatWriteEntry_goes hg1.sound (hg1.shape.inVolume.2 hcv) clusterEoc
    have hmod : c % 2 ^ 32 = c :=
      Nat.mod_eq_of_lt (hcv.2.trans_le (h.clusters.trans (by decide)))
    have hlink : linkRun c 1 1 fs1 = (true, fs2) := by
      rw [linkRun]
      simp only [Nat.zero_add, Nat.sub_self, Nat.add_zero, hmod, if_pos, hw]
      rfl
    rw [hg1.table, hg1.data, show low28 clusterEoc = clusterEoc by decide] at hg2
    have hg3 := hg2.sound.counts (tookClusters c 1 fs2.vol).nextFree (tookClusters c 1 fs2.vol).freeClusters
    refine ⟨c, _, ?_, Or.inr ⟨Nat.ne_of_gt (Nat.zero_lt_of_lt hcv.1), hc, (hg1.trans hg2).on hg3⟩⟩
    rw [fat32AllocClusters, if_neg Nat.one_ne_zero, if_neg (by decide)]
    simp only [hs, hlink, Nat.lt_irrefl, if_false]
    rfl
  · have h0 : fs.free = ∅ := by
      refine Finset.eq_empty_of_forall_notMem fun x hx => hno x hx ?_
      have := (Fs.mem_free.1 hx).1
      exact ⟨this.1, Nat.lt_add_left 2 this.2⟩
    refine ⟨0, fs1, ?_, Or.inl ⟨rfl, Finset.card_eq_zero.2 h0, hg1⟩⟩
    rw [fat32AllocClusters, if_neg Nat.one_ne_zero, if_neg (by decide)]
    simp only [hs, Nat.one_pos, if_true]

/-- A cluster is allocated, if one is free. -/
theorem fat32AllocClusters_one (h : Sound fs) (hfree : 0 < fs.free.card) :
    ∃ c fs', fat32AllocClusters 1 0 fs = (c, fs') ∧ c ∈ fs.free ∧
      Goes fs fs' (update fs.table c clusterEoc) fs.data := by
  obtain ⟨x, hx⟩ := Finset.card_pos.1 hfree
  have hx' := (Fs.mem_free.1 hx).1
  obtain ⟨c, fs', ha, ⟨-, h0, -⟩ | ⟨-, hc, hg⟩⟩ := fat32AllocClusters_spec h (hx'.1.trans_lt hx'.2)
  · omega
  · exact ⟨c, fs', ha, hc, hg⟩

/-- **A chain has grown**, by clusters that were free, and every other cluster in use is as it was. -/
structure Grows (fs fs' : Fs) (cs cs' : List Nat) : Prop where
  sound : Sound fs'
  shape : SameShape fs.vol fs'.vol
  begins : cs <+: cs'
  free : fs'.free.card + cs'.length = fs.free.card + cs.length
  fresh : ∀ x ∈ cs', x ∉ cs → fs.table x = 0
  table : ∀ x, fs.table x ≠ 0 → x ∉ cs → fs'.table x = fs.table x
  data : ∀ x, fs.table x ≠ 0 → x ∉ cs → fs'.data x = fs.data x

variable {cs' cs'' : List Nat}

theorem Grows.not_mem (h : Grows fs fs' cs cs') (hx : fs.table x ≠ 0) (hn : x ∉ cs) :
    x ∉ cs' := fun hmem => hx (h.fresh x hmem hn)

theorem Grows.trans (h : Grows fs fs' cs cs') (h' : Grows fs' fs'' cs' cs'') : Grows fs fs'' cs cs'' where
  sound := h'.sound
  shape := h.shape.trans h'.shape
  begins := h.begins.trans h'.begins
  free := h'.free.trans h.free
  fresh := fun x hx hn => by
    by_contra hne
    exact hne ((h.table x hne hn).symm.trans (h'.fresh x hx (h.not_mem hne hn)))
  table := fun x hx hn => by
    have h1 := h.table x hx hn
    exact (h'.table x (h1 ▸ hx) (h.not_mem hx hn)).trans h1
  data := fun x hx hn =>
    (h'.data x (h.table x hx hn ▸ hx) (h.not_mem hx hn)).trans (h.data x hx hn)

/-- Nothing but what the clusters of the chain hold has changed. -/
theorem Goes.grows (h : Goes fs fs' fs.table d) (hd : ∀ x, x ∉ cs → d x = fs.data x) : Grows fs fs' cs cs where
  sound := h.sound
  shape := h.shape
  begins := List.prefix_rfl
  free := by rw [Fs.free, Fs.free, h.shape.totalClusters, h.table]
  fresh := fun x hx hn => absurd hx hn
  table := fun x _ _ => by rw [h.table]
  data := fun x _ hn => by rw [h.data, hd x hn]

/-- The table after a cluster has been put behind the last one of a chain. -/
def linkedTable (t : Nat → Nat) (last new : Nat) : Nat → Nat :=
  update (update t last new) new clusterEoc

theorem linkedTable_new (last new : Nat) : linkedTable t last new new = clusterEoc :=
  update_self ..

theorem linkedTable_last {last new : Nat} (h : last ≠ new) : linkedTable t last new last = new := by
  rw [linkedTable, update_of_ne h, update_self]

theorem linkedTable_other {last new x : Nat} (h : x ≠ last) (h' : x ≠ new) : linkedTable t last new x = t x := by
  rw [linkedTable, update_of_ne h', update_of_ne h]

/-- What is written of the table after a cluster `new` has been allocated, to put it behind `last`. -/
theorem fatWriteEntry_link {fs1 : Fs} {last new : Nat} (h : Sound fs) (hlast : InVolume fs.vol last)
    (hnew : new ∈ fs.free) (hg : Goes fs fs1 (update fs.table new clusterEoc) fs.data) :
    ∃ fs2 fs3, fatWriteEntry last new fs1 = (true, fs2) ∧ fatWriteEntry new clusterEoc fs2 = (true, fs3) ∧
      Goes fs fs3 (linkedTable fs.table last new) fs.data := by
  have hnv := (Fs.mem_free.1 hnew).1
  obtain ⟨fs2, hw2, hg2⟩ := fatWriteEntry_goes hg.sound (hg.shape.inVolume.2 hlast) new
  obtain ⟨fs3, hw3, hg3⟩ :=
    fatWriteEntry_goes hg2.sound ((hg.trans hg2).shape.inVolume.2 hnv) clusterEoc
  refine ⟨fs2, fs3, hw2, hw3, ?_⟩
  have hlow : low28 new = new :=
    low28_of_lt (hnv.2.trans_le (h.clusters.trans (by decide)))
  have htab : update (update (update fs.table new clusterEoc) last new)
      new clusterEoc = linkedTable fs.table last new := by
    funext x
    rw [linkedTable]
    simp only [Function.update_apply]
    split
    · rfl
    · rfl
  rw [hg2.table, hg.table, hg2.data, hg.data, hlow, show low28 clusterEoc = clusterEoc by decide, htab] at hg3
  exact (hg.trans hg2).trans hg3


/-- One cluster less is free. -/
theorem card_free_of_took {new : Nat} (hshape : SameShape fs.vol fs'.vol) (hnew : new ∈ fs.free)
    (hused : fs'.table new ≠ 0) (h : ∀ x, x ≠ new → (fs'.table x = 0 ↔ fs.table x = 0)) :
    fs'.free.card + 1 = fs.free.card := by
  have he : fs'.free = fs.free.erase new := by
    ext x
    rw [Finset.mem_erase, Fs.mem_free, Fs.mem_free, hshape.inVolume]
    constructor
    · rintro ⟨hv, h0⟩
      have hx : x ≠ new := by
        rintro rfl
        exact hused h0
      exact ⟨hx, hv, (h x hx).1 h0⟩
    · rintro ⟨hx, hv, h0⟩
      exact ⟨hv, (h x hx).2 h0⟩
  rw [he]
  exact Finset.card_erase_add_one hnew

/-- **A cluster is put behind the last one of a chain.** -/
theorem Goes.link {new : Nat} (hch : Chain fs.vol fs.table c cs) (hs : Sound fs) (hne : cs ≠ [])
    (hnew : new ∈ fs.free) (hg : Goes fs fs' (linkedTable fs.table (cs.getLast hne) new) fs.data) :
    Grows fs fs' cs (cs ++ [new]) ∧ Chain fs'.vol fs'.table c (cs ++ [new]) := by
  obtain ⟨hnv, hn0⟩ := Fs.mem_free.1 hnew
  have hused : ∀ x ∈ cs, x ≠ new := by
    rintro x hx rfl
    exact hch.used x hx hn0
  have hlast : cs.getLast hne ≠ new := hused _ (List.getLast_mem hne)
  have hnew0 : new ≠ 0 := by
    have := hnv.1
    omega
  have heoc : ¬clusterEoc ≤ new := Nat.not_le.2 (hs.isCluster hnv).2
  refine ⟨⟨hg.sound, hg.shape, List.prefix_append .., ?_, ?_, ?_, fun x _ _ => by rw [hg.data]⟩, ?_⟩
  · have hcard : fs'.free.card + 1 = fs.free.card := by
      refine card_free_of_took hg.shape hnew ?_ fun x hx => ?_
      · rw [hg.table, linkedTable_new]
        decide
      · rw [hg.table]
        rcases eq_or_ne x (cs.getLast hne) with rfl | hxl
        · rw [linkedTable_last hlast]
          exact iff_of_false hnew0 (hch.used _ (List.getLast_mem hne))
        · rw [linkedTable_other hxl hx]
    rw [List.length_append, List.length_singleton]
    omega
  · intro x hx hn
    rcases List.mem_append.1 hx with hx | hx
    · exact absurd hx hn
    · rw [List.mem_singleton.1 hx]
      exact hn0
  · intro x hx hn
    rw [hg.table, linkedTable_other]
    · rintro rfl
      exact hn (List.getLast_mem hne)
    · rintro rfl
      exact hx hn0
  · rw [hg.table]
    refine ⟨hch.list.snoc hne hnew0 ?_ ?_ ?_, ?_, ?_⟩
    · rw [nextOf, linkedTable_last hlast, if_neg heoc]
    · rw [nextOf, linkedTable_new, if_pos (Nat.le_refl _)]
    · intro b hb hbl
      rw [nextOf, nextOf, linkedTable_other hbl (hused b hb)]
    · intro x hx
      rcases List.mem_append.1 hx with hx | hx
      · exact hg.shape.inVolume.2 (hch.inVolume x hx)
      · rw [List.mem_singleton.1 hx]
        exact hg.shape.inVolume.2 hnv
    · intro x hx
      rcases List.mem_append.1 hx with hx | hx
      · rcases eq_or_ne x (cs.getLast hne) with rfl | hxl
        · rw [linkedTable_last hlast]
          exact hnew0
        · rw [linkedTable_other hxl (hused x hx)]
          exact hch.used x hx
      · rw [List.mem_singleton.1 hx, linkedTable_new]
        decide

/-- A cluster that has been allocated is a chain of its own, whatever is put in it. -/
theorem Goes.took {new : Nat} (hnew : new ∈ fs.free) (hd : ∀ x, x ≠ new → d x = fs.data x)
    (hg : Goes fs fs' (update fs.table new clusterEoc) d) :
    Grows fs fs' [] [new] ∧ Chain fs'.vol fs'.table new [new] := by
  obtain ⟨hnv, hn0⟩ := Fs.mem_free.1 hnew
  have hent : fs'.table new = clusterEoc := by rw [hg.table, update_self]
  have hused : fs'.table new ≠ 0 := by
    rw [hent]
    decide
  have hother : ∀ x, x ≠ new → fs'.table x = fs.table x := fun x hx => by
    rw [hg.table, update_of_ne hx]
  refine ⟨⟨hg.sound, hg.shape, List.nil_prefix, ?_, ?_, ?_, fun x hx _ => ?_⟩, ⟨⟨rfl, ?_, ?_⟩, ?_, ?_⟩⟩
  · exact card_free_of_took hg.shape hnew hused fun x hx => by rw [hother x hx]
  · intro x hx _
    rw [List.mem_singleton.1 hx]
    exact hn0
  · intro x hx _
    refine hother x ?_
    rintro rfl
    exact hx hn0
  · rw [hg.data, hd]
    rintro rfl
    exact hx hn0
  · have := hnv.1
    omega
  · rw [nextOf, hent, if_pos (Nat.le_refl _)]
    rfl
  · intro x hx
    rw [List.mem_singleton.1 hx]
    exact hg.shape.inVolume.2 hnv
  · intro x hx
    rw [List.mem_singleton.1 hx]
    exact hused

/-! ## Freeing a chain -/

/-- The table after a chain has been freed. -/
def freedTable (t : Nat → Nat) (cs : List Nat) : Nat → Nat := fun x => if x ∈ cs then clusterFree else t x

/-- **A round of the loop**: the cluster is freed, and the count goes up. -/
theorem freeChainLoop_step (h : Sound fs) (hc : IsCluster c) (hin : InTable fs.vol c) (fuel : Nat) :
    ∃ fs', Goes fs fs' (update fs.table c clusterFree) fs.data ∧
      fs'.vol.freeClusters = (fs.vol.freeClusters + 1) % 2 ^ 32 ∧
      freeChainLoop (fuel + 1) c fs =
        if clusterEoc ≤ fs.table c then some ((), fs') else freeChainLoop fuel (fs.table c) fs' := by
  obtain ⟨fs1, hr, hg1⟩ := fatReadEntry_table h hin
  obtain ⟨fs2, hw, hg2⟩ := fatWriteEntry_table hg1.sound (hg1.shape.inTable.2 hin) clusterFree
  rw [hg1.table, hg1.data, show low28 clusterFree = clusterFree by decide] at hg2
  have hg3 := hg2.sound.counts fs2.vol.nextFree ((fs2.vol.freeClusters + 1) % 2 ^ 32)
  have hcount : fs2.vol.freeClusters = fs.vol.freeClusters := by
    have h1 := (fatReadEntry_touches c fs).freeClusters
    have h2 := (fatWriteEntry_touches c clusterFree fs1).freeClusters
    rw [hr] at h1
    rw [hw] at h2
    exact h2.trans h1
  refine ⟨_, (hg1.trans hg2).on hg3, congrArg (fun k => (k + 1) % 2 ^ 32) hcount, ?_⟩
  rw [freeChainLoop, if_pos hc, bind_run (lift_run hr)]
  dsimp only
  rw [bind_run (lift_run hw), bind_run (modify_run _ _)]
  split
  · rfl
  · rfl

/-- **A path is freed** that comes to no cluster twice, in as many rounds, and the loop goes on from where it leads. -/
theorem freeChainLoop_walk {fuel e : Nat} (h : Sound fs) (hp : Path fs.table IsCluster c cs e) (hnd : cs.Nodup)
    (hin : ∀ x ∈ cs, InTable fs.vol x) (hfuel : cs.length < fuel) :
    ∃ fs', freeChainLoop fuel c fs = freeChainLoop (fuel - cs.length) e fs' ∧
      Goes fs fs' (freedTable fs.table cs) fs.data ∧
      fs'.vol.freeClusters % 2 ^ 32 = (fs.vol.freeClusters + cs.length) % 2 ^ 32 ∧
      (fs.vol.freeClusters < 2 ^ 32 → fs'.vol.freeClusters < 2 ^ 32) := by
  induction cs generalizing fuel c fs with
  | nil =>
    obtain rfl : c = e := hp
    refine ⟨fs, rfl, ⟨h, .refl _, ?_, rfl⟩, rfl, id⟩
    funext x
    rw [freedTable, if_neg List.not_mem_nil]
  | cons x cs ih =>
    obtain ⟨fuel, rfl⟩ : ∃ k, fuel = k + 1 := Nat.exists_eq_add_of_le' (Nat.zero_lt_of_lt hfuel)
    replace hfuel := Nat.lt_of_succ_lt_succ hfuel
    obtain ⟨rfl, hc, hp⟩ := hp
    obtain ⟨hnot, hnd⟩ := List.nodup_cons.1 hnd
    obtain ⟨fs1, hg, hcount, hl⟩ := freeChainLoop_step h hc (hin c List.mem_cons_self) fuel
    have hother : ∀ y ∈ cs, fs1.table y = fs.table y := fun y hy => by
      rw [hg.table, update_of_ne]
      rintro rfl
      exact hnot hy
    have hfreed : freedTable fs.table (c :: cs) = freedTable fs1.table cs := by
      funext y
      rw [hg.table, freedTable, freedTable, Function.update_apply]
      by_cases hy : y = c
      · simp only [hy, List.mem_cons, true_or, if_true, ite_self]
      · simp only [hy, List.mem_cons, false_or, if_false]
    obtain ⟨fs', hl', hg', hcount', hlt'⟩ := ih hg.sound (hp.congr hother) hnd
      (fun y hy => hg.shape.inTable.2 (hin y (List.mem_cons_of_mem c hy))) hfuel
    -- the loop ends as well if it is left at the end of a chain
    have hround : freeChainLoop (fuel + 1) c fs = freeChainLoop fuel (fs.table c) fs1 := by
      rw [hl]
      split
      · obtain ⟨k, rfl⟩ : ∃ k, fuel = k + 1 := Nat.exists_eq_add_of_le' (Nat.zero_lt_of_lt hfuel)
        rw [freeChainLoop, if_neg fun hcl => absurd hcl.2 (Nat.not_lt.2 ‹_›)]
        rfl
      · rfl
    rw [List.length_cons, Nat.add_sub_add_right, hround, hfreed]
    refine ⟨fs', hl', ⟨hg'.sound, hg.shape.trans hg'.shape, hg'.table, hg'.data.trans hg.data⟩, ?_,
      fun _ => hlt' (hcount ▸ Nat.mod_lt _ (by decide))⟩
    rw [hcount', hcount, Nat.mod_add_mod, Nat.add_assoc, Nat.add_comm 1]

/-- It ends if the path stops. -/
theorem freeChainLoop_path {fuel e : Nat} (h : Sound fs) (hp : Path fs.table IsCluster c cs e)
    (he : ¬IsCluster e) (hnd : cs.Nodup) (hin : ∀ x ∈ cs, InTable fs.vol x) (hfuel : cs.length < fuel) :
    ∃ fs', freeChainLoop fuel c fs = some ((), fs') ∧ Goes fs fs' (freedTable fs.table cs) fs.data ∧
      fs'.vol.freeClusters % 2 ^ 32 = (fs.vol.freeClusters + cs.length) % 2 ^ 32 ∧
      (fs.vol.freeClusters < 2 ^ 32 → fs'.vol.freeClusters < 2 ^ 32) := by
  obtain ⟨fs', hl, hrest⟩ := freeChainLoop_walk h hp hnd hin hfuel
  obtain ⟨k, hk⟩ : ∃ k, fuel - cs.length = k + 1 := Nat.exists_eq_add_of_le' (Nat.sub_pos_of_lt hfuel)
  refine ⟨fs', ?_, hrest⟩
  rw [hl, hk, freeChainLoop, if_neg he]
  rfl

/-- A chain is a path that stops. -/
theorem Chain.stops (hs : Sound fs) (h : Chain fs.vol t c cs) : ∃ e, Path t IsCluster c cs e ∧ ¬IsCluster e := by
  induction cs generalizing c with
  | nil =>
    obtain rfl : c = 0 := h.list
    exact ⟨0, rfl, by decide⟩
  | cons x cs ih =>
    obtain rfl := h.head
    have hc := hs.isCluster (h.inVolume c List.mem_cons_self)
    obtain ⟨e, hp, he⟩ := ih h.tail
    by_cases hend : clusterEoc ≤ t c
    · obtain rfl := (h.next_end hs).1 (Or.inl (if_pos hend))
      exact ⟨t c, ⟨rfl, hc, rfl⟩, fun hn => absurd hn.2 (Nat.not_lt.2 hend)⟩
    · rw [nextOf, if_neg hend] at hp
      exact ⟨e, ⟨rfl, hc, hp⟩, he⟩

theorem freeChainLoop_ok {fuel : Nat} (hs : Sound fs) (hch : Chain fs.vol fs.table c cs) (hfuel : cs.length < fuel) :
    ∃ fs', freeChainLoop fuel c fs = some ((), fs') ∧ Goes fs fs' (freedTable fs.table cs) fs.data := by
  obtain ⟨e, hp, he⟩ := hch.stops hs
  obtain ⟨fs', hl, hg, -⟩ := freeChainLoop_path hs hp he hch.list.nodup
    (fun x hx => hs.table x (hch.inVolume x hx)) hfuel
  exact ⟨fs', hl, hg⟩

end WuBuOS.Fat32
