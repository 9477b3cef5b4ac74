import WuBuOS.Kernel.Fat32.Allocate
import WuBuOS.Kernel.Fat32.Format
import WuBuOS.Kernel.Fat32.FreeChain
import Mathlib.Algebra.Order.Interval.Finset.SuccPred
import Mathlib.Order.Interval.Finset.Nat
import Mathlib.Data.Nat.SuccPred

/-!
# The count of free clusters

`fat32_format` stores in the FSInfo sector how many clusters are free, and `fat32_mount` believes it.  But
the formatter divides all sectors behind the reserved ones by the size of a cluster, also those that the two
copies of the table take, and there are never so many clusters.  Allocating and freeing change the count by what they
change in the table, so the difference stays (`freeCount_drifts`): on no volume, and after no calls, is
`free_clusters` what `fat32_count_free` returns.
-/

namespace WuBuOS.Fat32

open Bytes Rows Runs Trail

variable {fs fs' f m s s' : Fs} {n c count hint : Nat} {name : Option (List UInt8)}

/-! ## Calls -/

/-- A call that takes clusters or gives them back. -/
inductive ClusterCall
  | alloc (count hint : Nat)
  | free (c : Nat)

/-- A call leads from one state to another. -/
def ClusterCall.Leads (fs : Fs) (call : ClusterCall) (fs' : Fs) : Prop :=
  match call with
  | .alloc count hint => (fat32AllocClusters count hint fs).2 = fs'
  | .free c => fat32FreeChain c fs = some ((), fs')

/-- Only chains are freed. -/
def ClusterCall.Proper (fs : Fs) : ClusterCall → Prop
  | .alloc _ _ => True
  | .free c => ∃ cs, Chain fs.vol fs.table c cs

/-- **The count is right** after every sequence of calls: it is what `fat32_count_free` returns. -/
def CountRight (m : Fs) : Prop :=
  ∀ calls s, Run (guarded ClusterCall.Proper ClusterCall.Leads) m calls s →
    s.vol.freeClusters = (fat32CountFree s).1

/-- What is allocated is in the volume, as `allocRight_iff` has it. -/
def ClusterCall.Fits (fs : Fs) : ClusterCall → Prop
  | .alloc count hint => AllocFits fs count hint
  | .free c => ∃ cs, Chain fs.vol fs.table c cs

/-- The clusters that the two copies of the table take from the volume. -/
def drift (n : Nat) : Nat :=
  (n - 32) / formatSectorsPerCluster n -
    (n - (32 + 2 * formatSectorsPerFat n)) / formatSectorsPerCluster n

/-! ## Counting -/

/-- The loop counts the free clusters that are still to come. -/
theorem countFreeLoop_ok {count : Nat} (h : Sound fs) (hc : 2 ≤ c) (hn : c + n = fs.vol.totalClusters) :
    (countFreeLoop n c count fs).1 =
      count + ((Finset.Ico c fs.vol.totalClusters).filter fun x => fs.table x = 0).card := by
  induction n generalizing c count fs with
  | zero =>
    rw [Finset.Ico_eq_empty (by omega)]
    rfl
  | succ n ih =>
    have hlt : c < fs.vol.totalClusters := by omega
    obtain ⟨fs1, hr, hg⟩ := fatReadEntry_goes h ⟨hc, hlt⟩
    have hrest := fun count => @ih fs1 (c + 1) count hg.sound (Nat.le_succ_of_le hc)
      (by rw [hg.shape.totalClusters]; omega)
    rw [hg.shape.totalClusters, hg.table] at hrest
    rw [countFreeLoop, hr]
    rw [hrest, ← Finset.insert_Ico_add_one_left_eq_Ico hlt, Finset.filter_insert]
    split
    · rename_i hfree
      rw [if_pos (show fs.table c = 0 from hfree), Finset.card_insert_of_notMem (by simp)]
      omega
    · rename_i hused
      rw [if_neg (show ¬fs.table c = 0 from hused)]

/-- **`fat32_count_free`** returns the number of free clusters. -/
theorem fat32CountFree_ok (h : Sound fs) (htot : 2 ≤ fs.vol.totalClusters) : (fat32CountFree fs).1 = fs.free.card := by
  refine (countFreeLoop_ok h (Nat.le_refl 2) (by omega)).trans ?_
  rw [Nat.zero_add, Fs.free]
  congr 1
  ext x
  rw [Finset.mem_filter, Finset.mem_filter, Finset.mem_Ico, Finset.mem_range]
  omega

/-! ## What a call does to the count -/

/-- So many clusters have been taken, or given back, and the count says so. -/
structure Counted (fs fs' : Fs) (taken given : Nat) : Prop where
  sound : Sound fs'
  total : fs'.vol.totalClusters = fs.vol.totalClusters
  count : fs'.vol.freeClusters + taken = fs.vol.freeClusters + given
  free : fs'.free.card + taken = fs.free.card + given

/-- **An allocation** that fits in the volume, where the count is more than what is free. -/
theorem alloc_counted (h : Sound fs) (htot : 2 < fs.vol.totalClusters) (hfits : AllocFits fs count hint)
    (hbig : fs.free.card < fs.vol.freeClusters) :
    ∃ k, Counted fs (fat32AllocClusters count hint fs).2 k 0 := by
  have hnone : ∀ {fs' : Fs}, Keeps fs fs' → fs'.vol.freeClusters = fs.vol.freeClusters →
      Counted fs fs' 0 0 := fun hk hcount => by
    have hg := hk.goes h
    refine ⟨hg.sound, hg.shape.totalClusters, hcount, ?_⟩
    rw [Fs.free, Fs.free, hg.shape.totalClusters, hg.table]
  by_cases hcount : count = 0
  · refine ⟨0, ?_⟩
    rw [fat32AllocClusters, if_pos hcount]
    exact hnone (.refl h.consistent) rfl
  have hfat : 0 < fs.vol.sectorsPerFat := h.table 2 ⟨Nat.le_refl 2, htot⟩
  rcases fat32AllocClusters_looks h.consistent (Nat.pos_of_ne_zero hcount)
    (look_inTable h.table hfat hint) with ⟨j, fs1, fs2, hfirst, hj, hk, hl, hsame, ha⟩ |
      ⟨hno, -⟩ | ⟨-, -, hk, hsame⟩
  · obtain ⟨hrow, hframe, htab, hother⟩ :=
      linked_right h.table h.clusters hfirst.1 (hfits.ends j hfirst hj) hk hl
    rw [ha]
    generalize look fs.vol.totalClusters (scanStart hint) j = first at hrow htab hother
    have hrun : Finset.Ico first (first + count) ⊆ fs.free := fun d hd => by
      obtain ⟨hle, hlt⟩ := Finset.mem_Ico.1 hd
      have := hrow (d - first) (by omega)
      rw [Nat.add_sub_cancel' hle] at this
      exact Fs.mem_free.2 this
    have hfree : fs2.free = fs.free \ Finset.Ico first (first + count) := by
      ext d
      rw [Finset.mem_sdiff, Fs.mem_free, Fs.mem_free, hframe.shape.inVolume, Finset.mem_Ico]
      by_cases hd : first ≤ d ∧ d < first + count
      · have hlink := htab (d - first) (by omega)
        rw [Nat.add_sub_cancel' hd.1] at hlink
        have hne : fs2.table d ≠ 0 := by
          rw [hlink]
          split
          · decide
          · omega
        exact iff_of_false (fun hf => hne hf.2) fun hf => hf.2 hd
      · rw [and_iff_left hd, and_congr_right_iff]
        intro hin
        have htabd := hframe.shape.inTable.2 (h.table d hin)
        rw [Fs.table_eq htabd, Fs.table_eq (h.table d hin), hother d (h.table d hin) (by omega)]
    have hcard := Finset.card_sdiff_add_card_eq_card hrun
    rw [← hfree, Nat.card_Ico, Nat.add_sub_cancel_left] at hcard
    have hs2 := h.of_frame hframe
    have hg := hs2.counts (tookClusters first count fs2.vol).nextFree
      (tookClusters first count fs2.vol).freeClusters
    refine ⟨count, hg.sound, hframe.shape.totalClusters, ?_, hcard⟩
    show (if count < fs2.vol.freeClusters then fs2.vol.freeClusters - count else fs2.vol.freeClusters) + count = _
    rw [hsame, if_pos (by omega)]
    omega
  · exact absurd h.noErrors hno
  · exact ⟨0, hnone hk hsame⟩

/-- **Freeing a chain.** -/
theorem free_counted {cs : List Nat} (h : Sound fs) (hch : Chain fs.vol fs.table c cs)
    (hlt : fs.vol.freeClusters + cs.length < 2 ^ 32) (hl : fat32FreeChain c fs = some ((), fs')) :
    Counted fs fs' 0 cs.length := by
  obtain ⟨e, hp, he⟩ := hch.stops h
  obtain ⟨fs'', hl', hg, hcount, hsmall⟩ := freeChainLoop_path h hp he hch.list.nodup
    (fun x hx => h.table x (hch.inVolume x hx)) (hch.length_lt h)
  obtain rfl : fs'' = fs' := (Prod.mk.inj (Option.some.inj (hl'.symm.trans hl))).2
  refine ⟨hg.sound, hg.shape.totalClusters, ?_, ?_⟩
  · have := hsmall (by omega)
    omega
  · have hfree : fs''.free = fs.free ∪ cs.toFinset := by
      ext d
      rw [Finset.mem_union, Fs.mem_free, Fs.mem_free, hg.shape.inVolume, hg.table, freedTable, List.mem_toFinset]
      by_cases hd : d ∈ cs
      · rw [if_pos hd]
        exact iff_of_true ⟨hch.inVolume d hd, rfl⟩ (Or.inr hd)
      · rw [if_neg hd, or_iff_left hd]
    rw [hfree, Finset.card_union_of_disjoint, List.toFinset_card_of_nodup hch.list.nodup, Nat.add_zero]
    exact Finset.disjoint_left.2 fun d hd hcs =>
      hch.used d (List.mem_toFinset.1 hcs) (Fs.mem_free.1 hd).2

/-! ## What the formatter says -/

/-- The FSInfo sector of a disk that has been formatted. -/
theorem fat32Format_info (he : NoErrors fs) (hf : fat32Format n name fs = (true, f)) {o : Nat}
    (ho : o < sectorSize) : f.disk (1 * sectorSize + o) = formatFsInfo n o := by
  obtain ⟨env, -, hw⟩ := @writeSectors_ok fs.ask.2
    (formatSectors n name (get fs.ask.1.junk 0 4)) fun k => he (k + 1)
  have hdisk := congrArg Fs.disk (Prod.mk.inj (hw.symm.trans hf)).2
  dsimp only at hdisk
  rw [← hdisk, formatSectors, stored_append, stored_append, stored_append,
    stored_other (fun p hp heq => by have := (mem_zeroSectors hp).1; omega) ho,
    show [(32, fatInit), (32 + formatSectorsPerFat n, fatInit), (1, formatFsInfo n)] =
      [(32, fatInit), (32 + formatSectorsPerFat n, fatInit)] ++ [(1, formatFsInfo n)] from rfl,
    stored_append]
  exact stored_last (fun p hp => absurd hp List.not_mem_nil) ho

/-- What `fat32_mount` takes over of it. -/
theorem freeClusters_of_mount (he : NoErrors fs) (hf : fat32Format n name fs = (true, f)) (hd : Divided n)
    (hm : fat32Mount n f = (true, m)) : m.vol.freeClusters = (formatClusters n + 2 ^ 32 - 1) % 2 ^ 32 := by
  obtain ⟨f', hf', hformatted, he'⟩ := @fat32Format_ok fs n name he hd
  obtain rfl : f = f' := congrArg Prod.snd (hf.symm.trans hf')
  obtain ⟨-, rfl⟩ := fat32Mount_inv hm
  obtain ⟨hv, hdisk, henv⟩ := markInUse_shape (sectors f.disk 0 1) (populated n f)
  rw [hformatted.bootSector hd]
  have hok : (markInUse (sectors f.disk 0 1) (populated n f)).ask.1.ok = true :=
    (show NoErrors (populated n f) from fun k => he' (k + 1)).later henv 0
  have hget : ∀ a k, a + k ≤ sectorSize → get (sectors (markInUse (sectors f.disk 0 1) (populated n f)).disk 1 1) a k =
        get (formatFsInfo n) a k := fun a k hk => get_congr fun x _ hx => by
    rw [sectors, if_pos (by omega), hdisk _ (by omega)]
    exact fat32Format_info he hf (by omega)
  rw [readFsInfo, if_pos (show 0 < 1 by decide), blkRead, if_pos hok]
  dsimp only
  rw [fsInfoCounts, hget _ _ (by decide), hget _ _ (by decide), hget _ _ (by decide),
    hget _ _ (by decide), hget _ _ (by decide)]
  simp (disch := omega) only [formatFsInfo, get_put_outside, get_put]
  rfl

/-- Every cluster but the one of the root directory is free. -/
theorem table_of_mount (he : NoErrors fs) (hf : fat32Format n name fs = (true, f)) (hd : Divided n)
    (hm : fat32Mount n f = (true, m)) (hlt : n < 2 ^ 34) (hc : 3 ≤ c) (hin : c < m.vol.totalClusters) :
    m.table c = 0 := by
  obtain ⟨f', hf', h, he'⟩ := @fat32Format_ok fs n name he hd
  obtain rfl : f = f' := congrArg Prod.snd (hf.symm.trans hf')
  have hmounted := mounted_of_mount hm
  have hvol := hmounted.shape
  rw [described, h.bootSector hd] at hvol
  have hfat : m.vol.sectorsPerFat = formatSectorsPerFat n := hvol.sectorsPerFat
  have htab := (h.empty he' hd hlt hm).sound.table c ⟨by omega, hin⟩
  rw [InTable, hfat] at htab
  have hzero : ∀ o, 12 ≤ o → fatInit o = 0 := fun o ho => by
    rw [fatInit, put, write_outside (by omega), put, write_outside (by omega), put, write_outside (by omega)]
  rw [Fs.table_eq (by rw [InTable, hfat]; exact htab), (fresh_of_mount hm).entry,
    show m.vol.fat1Lba = 32 from hvol.fat1Lba, tableEntry]
  have hbyte : ∀ i < 4, m.disk ((32 + c / entriesPerSector) * sectorSize +
      4 * (c % entriesPerSector) + i) = 0 := fun i hi => by
    have hmod : c % entriesPerSector < 128 := Nat.mod_lt _ (by decide)
    have hdiv := Nat.div_add_mod c entriesPerSector
    generalize c / entriesPerSector = q at htab hdiv ⊢
    generalize c % entriesPerSector = r at hmod hdiv ⊢
    rw [hmounted.disk _ (by simp only [sectorSize]; omega), Nat.add_assoc]
    have ho : 4 * r + i < sectorSize := by simp only [sectorSize]; omega
    by_cases h0 : q = 0
    · rw [h0, Nat.mul_zero] at hdiv
      rw [h0, Nat.add_zero, h.table _ ho]
      exact hzero _ (by omega)
    · exact h.rest _ (by omega) (by omega) _ ho
  rw [get_shift (m := fun _ => 0) (a := 0) hbyte]
  rfl

/-- **The two copies of the table take clusters**, on every volume. -/
theorem drift_pos (hn : 37 ≤ n) (hlt : n < 2 ^ 34) : 0 < drift n := by
  obtain ⟨s, hs, hsize, hns, hn1⟩ := formatSectorsPerCluster_cases hlt
  have hfat := formatSectorsPerFat_eq (show 32 ≤ n by omega) hlt
  have hs' : s = 1 ∨ s = 2 ∨ s = 4 ∨ s = 8 ∨ s = 16 ∨ s = 32 ∨ s = 64 := by simpa using hs
  rw [hsize] at hfat
  rw [drift, hsize, hfat]
  rcases hs' with rfl | rfl | rfl | rfl | rfl | rfl | rfl <;> omega

/-- The state of the count on a volume that has been formatted. -/
structure Drifts (n : Nat) (s : Fs) : Prop where
  sound : Sound s
  total : 2 < s.vol.totalClusters
  count : s.vol.freeClusters = s.free.card + drift n

/-- After mounting, every cluster is free but the first, which is that of the root directory. -/
theorem free_of_mount (he : NoErrors fs) (hn : 37 ≤ n) (hlt : n < 2 ^ 34)
    (hf : fat32Format n name fs = (true, f)) (hm : fat32Mount n f = (true, m)) :
    m.free = Finset.Ico 3 m.vol.totalClusters ∧ 2 < m.vol.totalClusters := by
  have hd := divided hn hlt
  have hempty := empty_of_format he hn hlt hf hm
  obtain ⟨-, hroot, -⟩ := shape_of_format he hn hlt hf hm
  have hin := hempty.chain.inVolume _ (List.mem_singleton_self _)
  have hused := hempty.chain.used _ (List.mem_singleton_self _)
  rw [hroot] at hin hused
  refine ⟨?_, hin.2⟩
  ext d
  rw [Fs.mem_free, Finset.mem_Ico, InVolume]
  constructor
  · rintro ⟨⟨h2, hd⟩, h0⟩
    refine ⟨Nat.lt_of_le_of_ne h2 ?_, hd⟩
    rintro rfl
    exact hused h0
  · rintro ⟨h3, hd'⟩
    exact ⟨⟨by omega, hd'⟩, table_of_mount he hf hd hm hlt h3 hd'⟩

theorem drifts_of_format (he : NoErrors fs) (hn : 37 ≤ n) (hlt : n < 2 ^ 34)
    (hf : fat32Format n name fs = (true, f)) (hm : fat32Mount n f = (true, m)) : Drifts n m := by
  have hd := divided hn hlt
  obtain ⟨-, -, htot⟩ := shape_of_format he hn hlt hf hm
  have hempty := empty_of_format he hn hlt hf hm
  obtain ⟨hfree, h2⟩ := free_of_mount he hn hlt hf hm
  refine ⟨hempty.sound, h2, ?_⟩
  obtain ⟨hcl, hsmall⟩ := formatClusters_eq (show 32 ≤ n by omega) hlt
  have hpos := drift_pos hn hlt
  have h3 := h2
  rw [htot] at h3
  rw [drift] at hpos
  rw [hfree, Nat.card_Ico, htot, freeClusters_of_mount he hf hd hm, hcl, drift]
  generalize (n - 32) / formatSectorsPerCluster n = k at *
  generalize (n - (32 + 2 * formatSectorsPerFat n)) / formatSectorsPerCluster n = k' at *
  omega

/-- The difference stays as it is. -/
theorem Drifts.step {call : ClusterCall} (h : Drifts n s) (hn : 37 ≤ n) (hlt : n < 2 ^ 34)
    (hfits : call.Fits s) (hl : call.Leads s s') : Drifts n s' := by
  have hpos := drift_pos hn hlt
  have hcount := h.count
  obtain ⟨taken, given, hc⟩ : ∃ taken given, Counted s s' taken given := by
    match call with
    | .alloc count hint =>
      obtain ⟨k, hk⟩ := alloc_counted h.sound h.total hfits (by omega)
      exact ⟨k, 0, hl ▸ hk⟩
    | .free c =>
      obtain ⟨cs, hch⟩ := hfits
      have hlen := hch.length_add_free h.sound
      have hsmall : drift n < 2 ^ 28 :=
        (Nat.sub_le _ _).trans_lt (formatClusters_eq (show 32 ≤ n by omega) hlt).2
      refine ⟨0, cs.length, free_counted h.sound hch ?_ hl⟩
      rw [maxSteps] at hlen
      omega
  refine ⟨hc.sound, by rw [hc.total]; exact h.total, ?_⟩
  have h1 := hc.count
  have h2 := hc.free
  omega

/-- **The count of free clusters is wrong on every volume.**  Whatever a device is formatted as, once it
has been mounted the count is not what `fat32_count_free` returns; and after every sequence of allocations
that fit in the volume, and of chains that are freed, it is more than that by the clusters that the
two copies of the table take. -/
theorem freeCount_drifts (he : NoErrors fs) (hn : 37 ≤ n) (hlt : n < 2 ^ 34)
    (hf : fat32Format n name fs = (true, f)) (hm : fat32Mount n f = (true, m)) :
    ¬CountRight m ∧ 0 < drift n ∧ ∀ calls s, Run (guarded ClusterCall.Fits ClusterCall.Leads) m calls s →
        s.vol.freeClusters = (fat32CountFree s).1 + drift n := by
  have hpos := drift_pos hn hlt
  have hstart := drifts_of_format he hn hlt hf hm
  have hcount : ∀ {s}, Drifts n s → s.vol.freeClusters = (fat32CountFree s).1 + drift n := fun h => by
    rw [fat32CountFree_ok h.sound (Nat.le_of_lt h.total)]
    exact h.count
  refine ⟨fun hr => ?_, hpos, fun calls s hrun => hcount ?_⟩
  · have := hr [] m (.nil m)
    have := hcount hstart
    omega
  · exact hrun.invariant (Drifts n) (fun s call t hstep h => h.step hn hlt hstep.1 hstep.2) hstart

theorem freeCount_drifts_hundred : ∃ f m, fat32Format 100 none blankFs = (true, f) ∧ fat32Mount 100 f = (true, m) ∧
      ∀ calls s, Run (guarded ClusterCall.Fits ClusterCall.Leads) m calls s →
        s.vol.freeClusters = (fat32CountFree s).1 + 4 := by
  obtain ⟨f, m, hf, hm⟩ := @blankFs_formatted 100 (by decide) (by decide)
  exact ⟨f, m, hf, hm, (freeCount_drifts (fun _ => rfl) (by decide) (by decide) hf hm).2.2⟩

/-- **A volume of 100 sectors.**  It is said to have 67 free clusters, and has 63. -/
theorem freeCount_hundred : ∃ f m, fat32Format 100 none blankFs = (true, f) ∧ fat32Mount 100 f = (true, m) ∧
      m.vol.freeClusters = 67 ∧ (fat32CountFree m).1 = 63 ∧ ¬CountRight m := by
  obtain ⟨f, m, hf, hm⟩ := @blankFs_formatted 100 (by decide) (by decide)
  have h := drifts_of_format (fun _ => rfl) (by decide) (by decide) hf hm
  have h67 : m.vol.freeClusters = 67 :=
    (freeClusters_of_mount (fun _ => rfl) hf (divided (by decide) (by decide)) hm).trans (by decide)
  have h63 : (fat32CountFree m).1 = 63 := by
    have hcount := h.count
    rw [show drift 100 = 4 by decide] at hcount
    rw [fat32CountFree_ok h.sound (Nat.le_of_lt h.total)]
    omega
  refine ⟨f, m, hf, hm, h67, h63, fun hr => ?_⟩
  have := hr [] m (.nil m)
  omega

/-- There is nothing on a volume of 100 sectors that has just been formatted, and one cluster has 16 slots. -/
theorem blankFs_hundred : ∃ f m, fat32Format 100 none blankFs = (true, f) ∧ fat32Mount 100 f = (true, m) ∧ Empty m ∧
    entriesPerCluster m.vol = 16 ∧ 0 < m.free.card := by
  obtain ⟨f, m, hf, hm⟩ := @blankFs_formatted 100 (by decide) (by decide)
  have hempty := empty_of_format (fun _ => rfl) (by decide) (by decide) hf hm
  obtain ⟨hspc, -, htot⟩ := shape_of_format (fun _ => rfl) (by decide) (by decide) hf hm
  obtain ⟨hfree, -⟩ := free_of_mount (fun _ => rfl) (by decide) (by decide) hf hm
  refine ⟨f, m, hf, hm, hempty, ?_, ?_⟩
  · rw [entriesPerCluster, hempty.sound.bytesPerCluster, hspc]
    decide
  · rw [hfree, Nat.card_Ico, htot]
    decide

end WuBuOS.Fat32
