import WuBuOS.Kernel.Fat32.Lookup

/-!
# What is before the table

The sectors before the table hold the boot sector, from which a volume is mounted.  No call on a
mounted volume writes there: the table is behind them, the clusters are behind the table, and every
cluster that is written has a number of at least 2, below which `fat32_cluster_to_lba` would lead to the
boot sector.  `Spares fs fs'` says that from `fs` to `fs'` nothing before the table has changed, and
nothing of the shape of the volume.

None of this depends on the cache or on requests that succeed.
-/

namespace WuBuOS.Fat32

open Bytes

/-- The parts of the volume are in their order. -/
structure Ordered (vol : Volume) : Prop where
  fat2 : vol.fat1Lba ≤ vol.fat2Lba
  data : vol.fat1Lba ≤ vol.dataLba

/-- **Nothing before the table has been written.** -/
structure Spares (fs fs' : Fs) : Prop where
  shape : SameShape fs.vol fs'.vol
  before : ∀ x < fs.vol.fat1Lba * sectorSize, fs'.disk x = fs.disk x

/-- A computation that writes nothing before the table. -/
def Sparing {α : Type} (x : M α) : Prop :=
  ∀ fs a fs', Ordered fs.vol → x fs = some (a, fs') → Spares fs fs'

variable {fs fs' fs'' : Fs} {α β : Type}

theorem Spares.refl (fs : Fs) : Spares fs fs := ⟨.refl _, fun _ _ => rfl⟩

theorem Spares.trans (h : Spares fs fs') (h' : Spares fs' fs'') : Spares fs fs'' where
  shape := h.shape.trans h'.shape
  before := fun x hx => (h'.before x (by rwa [h.shape.fat1Lba])).trans (h.before x hx)

theorem Ordered.of_spares (ho : Ordered fs.vol) (h : Spares fs fs') : Ordered fs'.vol where
  fat2 := by rw [h.shape.fat1Lba, h.shape.fat2Lba]; exact ho.fat2
  data := by rw [h.shape.fat1Lba, h.shape.dataLba]; exact ho.data

/-! ## Computations one after the other -/

theorem Sparing.pure (a : α) : Sparing (Pure.pure a : M α) := by
  intro fs b fs' _ h
  obtain ⟨rfl, rfl⟩ : a = b ∧ fs = fs' := by
    simpa using (show some (a, fs) = some (b, fs') from h)
  exact .refl fs

theorem Sparing.stuck : Sparing (stuck : M α) := fun _ _ _ _ h => by cases h

theorem Sparing.lift {f : Fs → α × Fs} (hf : ∀ fs, Ordered fs.vol → Spares fs (f fs).2) : Sparing (lift f) := by
  intro fs a fs' ho h
  obtain rfl : (f fs).2 = fs' := congrArg Prod.snd (Option.some.inj h)
  exact hf fs ho

theorem Sparing.bind {x : M α} {f : α → M β} (hx : Sparing x) (hf : ∀ a, Sparing (f a)) : Sparing (x >>= f) := by
  intro fs b fs' ho h
  obtain ⟨a, fs1, h1, h2⟩ := bind_inv h
  have hs := hx fs a fs1 ho h1
  exact hs.trans (hf a fs1 b fs' (ho.of_spares hs) h2)

/-- What is done with a result that is known to have a property. -/
theorem Sparing.bind_of {x : M α} {f : α → M β} (P : α → Prop) (hx : Sparing x)
    (hp : ∀ fs a fs', x fs = some (a, fs') → P a) (hf : ∀ a, P a → Sparing (f a)) :
    Sparing (x >>= f) := by
  intro fs b fs' ho h
  obtain ⟨a, fs1, h1, h2⟩ := bind_inv h
  have hs := hx fs a fs1 ho h1
  exact hs.trans (hf a (hp fs a fs1 h1) fs1 b fs' (ho.of_spares hs) h2)

/-- What is done with the state it has read. -/
theorem Sparing.get_bind {f : Fs → M β} (hf : ∀ s, Sparing (f s)) : Sparing (get >>= f) := by
  intro fs b fs' ho h
  exact hf fs fs b fs' ho h

/-! ## Requests -/

theorem ask_spares (fs : Fs) : Spares fs fs.ask.2 := ⟨.refl _, fun _ _ => rfl⟩

theorem malloc_spares (fs : Fs) : Spares fs (malloc fs).2 := ask_spares fs

theorem blkWrite_spares {lba : Nat} (n : Nat) (buf : Buf) (h : fs.vol.fat1Lba ≤ lba) :
    Spares fs (blkWrite lba n buf fs).2 where
  shape := .refl _
  before := fun _ hx => write_outside (Or.inl (Nat.lt_of_lt_of_le hx (Nat.mul_le_mul_right _ h)))

theorem readCluster_spares (c : Nat) (fs : Fs) : Spares fs (readCluster c fs).2 := ask_spares fs

theorem writeCluster_spares {c : Nat} (buf : Buf) (ho : Ordered fs.vol) (hc : 2 ≤ c) :
    Spares fs (writeCluster c buf fs).2 := by
  refine blkWrite_spares _ _ ?_
  rw [fat32ClusterToLba, if_neg (Nat.not_lt.2 hc)]
  exact Nat.le_add_right_of_le ho.data

theorem dosNow_spares (fs : Fs) : Spares fs (dosNow fs).2 := ask_spares fs

/-! ## The table -/

theorem setClean_spares (fs : Fs) : Spares fs fs.setClean :=
  ⟨by constructor <;> rfl, fun _ _ => rfl⟩

theorem fat32Flush_spares (ho : Ordered fs.vol) : Spares fs (fat32Flush fs).2 := by
  rw [fat32Flush]
  split
  · exact .refl fs
  · rename_i cache _
    have h1 : Spares fs (blkWrite (fs.vol.fat1Lba + fs.vol.cachedFatSector) 1 cache fs).2 :=
      blkWrite_spares _ _ (Nat.le_add_right _ _)
    generalize blkWrite (fs.vol.fat1Lba + fs.vol.cachedFatSector) 1 cache fs = r at h1 ⊢
    have h2 := h1.trans (blkWrite_spares 1 cache
      (show r.2.vol.fat1Lba ≤ fs.vol.fat2Lba + fs.vol.cachedFatSector by
        rw [h1.shape.fat1Lba]
        exact Nat.le_add_right_of_le ho.fat2))
    split
    · exact .refl fs
    · dsimp only
      split
      · exact h1
      · split
        · exact h1.trans (setClean_spares _)
        · split
          · exact h2
          · exact h2.trans (setClean_spares _)

theorem ensureCache_spares (fs : Fs) : Spares fs (ensureCache fs).2 := by
  rw [ensureCache]
  split
  · exact .refl fs
  · have hm := malloc_spares fs
    split
    · rename_i h
      rwa [h] at hm
    · rename_i h
      rw [h] at hm
      exact hm.trans ⟨by constructor <;> rfl, fun _ _ => rfl⟩

theorem loadSector_spares (s : Nat) (ho : Ordered fs.vol) : Spares fs (loadSector s fs).2 := by
  have hflush : Spares fs (flushIfDirty fs).2 := by
    rw [flushIfDirty]
    split
    · exact fat32Flush_spares ho
    · exact .refl fs
  rw [loadSector]
  split
  · exact hflush
  · have hread : Spares fs (blkRead ((flushIfDirty fs).2.vol.fat1Lba + s) 1 (flushIfDirty fs).2).2 :=
      hflush.trans (ask_spares _)
    split
    · rename_i h
      rwa [h] at hread
    · rename_i h
      rw [h] at hread
      exact hread.trans ⟨by constructor <;> rfl, fun _ _ => rfl⟩

theorem cacheForRead_spares (s : Nat) (ho : Ordered fs.vol) : Spares fs (cacheForRead s fs).2 := by
  have h1 := ensureCache_spares fs
  rw [cacheForRead]
  split
  · dsimp only
    split
    · exact h1
    · exact h1.trans (loadSector_spares s (ho.of_spares h1))
  · exact .refl fs

theorem cacheForWrite_spares (s : Nat) (ho : Ordered fs.vol) : Spares fs (cacheForWrite s fs).2 := by
  have h1 := ensureCache_spares fs
  rw [cacheForWrite]
  split
  · exact h1
  · split
    · exact h1.trans (loadSector_spares s (ho.of_spares h1))
    · exact h1

theorem fatReadEntry_spares (c : Nat) (ho : Ordered fs.vol) : Spares fs (fatReadEntry c fs).2 := by
  have h := cacheForRead_spares (c / entriesPerSector) ho
  rw [fatReadEntry]
  split
  · exact h
  · exact h

theorem fatWriteEntry_spares (c v : Nat) (ho : Ordered fs.vol) : Spares fs (fatWriteEntry c v fs).2 := by
  have h := cacheForWrite_spares (c / entriesPerSector) ho
  rw [fatWriteEntry]
  split
  · exact h
  · exact h.trans ⟨by constructor <;> rfl, fun _ _ => rfl⟩

/-! ## Clusters -/

theorem fat32NextCluster_spares (c : Nat) (ho : Ordered fs.vol) : Spares fs (fat32NextCluster c fs).2 := by
  have h := fatReadEntry_spares c ho
  rw [fat32NextCluster]
  split
  · exact .refl fs
  · split
    · rename_i hr
      rwa [hr] at h
    · rename_i hr
      rwa [hr] at h

/-- The scan begins at 2 or behind it, and goes back to 2. -/
theorem scanFree_spares {count n c first found : Nat} (ho : Ordered fs.vol) (hc : 2 ≤ c)
    (hfirst : found = 0 ∨ 2 ≤ first) :
    Spares fs (scanFree count n c first found fs).2 ∧
      ∀ first' found', (scanFree count n c first found fs).1 = some (first', found') → found' = 0 ∨ 2 ≤ first' := by
  induction n generalizing fs c first found with
  | zero =>
    refine ⟨.refl fs, fun first' found' h => ?_⟩
    obtain ⟨rfl, rfl⟩ : first = first' ∧ found = found' := by simpa [scanFree] using h
    exact hfirst
  | succ n ih =>
    rw [scanFree]
    dsimp only
    have hc' : 2 ≤ (if fs.vol.totalClusters ≤ c then 2 else c) := by
      split
      · exact Nat.le_refl 2
      · exact hc
    generalize (if fs.vol.totalClusters ≤ c then 2 else c) = c' at hc' ⊢
    have h := fatReadEntry_spares c' ho
    split
    · rename_i hr
      rw [hr] at h
      exact ⟨h, fun _ _ h' => by cases h'⟩
    · rename_i entry fs1 hr
      rw [hr] at h
      have hfirst' : 2 ≤ (if found = 0 then c' else first) := by
        split
        · exact hc'
        · exact hfirst.resolve_left ‹_›
      split
      · split
        · refine ⟨h, fun first' found' h' => ?_⟩
          obtain ⟨rfl, -⟩ := Prod.mk.inj (Option.some.inj h')
          exact Or.inr hfirst'
        · obtain ⟨h1, h2⟩ := ih (ho.of_spares h) (Nat.le_succ_of_le hc')
            (Or.inr hfirst' : found + 1 = 0 ∨ _)
          exact ⟨h.trans h1, h2⟩
      · obtain ⟨h1, h2⟩ := ih (ho.of_spares h) (Nat.le_succ_of_le hc') (Or.inl rfl : 0 = 0 ∨ 2 ≤ 0)
        exact ⟨h.trans h1, h2⟩

theorem linkRun_spares {first count n : Nat} (ho : Ordered fs.vol) : Spares fs (linkRun first count n fs).2 := by
  induction n generalizing fs with
  | zero => exact .refl fs
  | succ n ih =>
    rw [linkRun]
    have h := fatWriteEntry_spares ((first + (count - (n + 1))) % 2 ^ 32)
      (if n = 0 then clusterEoc else (first + (count - (n + 1))) % 2 ^ 32 + 1) ho
    split
    · rename_i hr
      rwa [hr] at h
    · rename_i hr
      rw [hr] at h
      exact h.trans (ih (ho.of_spares h))

/-- A cluster that is allocated is one of the data area. -/
theorem fat32AllocClusters_spares (ho : Ordered fs.vol) : Spares fs (fat32AllocClusters 1 0 fs).2 ∧
      ((fat32AllocClusters 1 0 fs).1 = 0 ∨ 2 ≤ (fat32AllocClusters 1 0 fs).1) := by
  obtain ⟨h, hfirst⟩ := @scanFree_spares fs 1 fs.vol.totalClusters 2 0 0 ho (Nat.le_refl 2)
    (Or.inl rfl)
  rw [fat32AllocClusters, if_neg Nat.one_ne_zero, if_neg (by decide)]
  split
  · rename_i hr
    rw [hr] at h
    exact ⟨h, Or.inl rfl⟩
  · rename_i first found fs1 hr
    rw [hr] at h hfirst
    split
    · exact ⟨h, Or.inl rfl⟩
    · have h1 := @linkRun_spares fs1 first 1 1 (ho.of_spares h)
      split
      · rename_i hl
        rw [hl] at h1
        exact ⟨h.trans h1, Or.inl rfl⟩
      · rename_i hl
        rw [hl] at h1
        refine ⟨(h.trans h1).trans ⟨by constructor <;> rfl, fun _ _ => rfl⟩, Or.inr ?_⟩
        exact (hfirst first found rfl).resolve_left (by omega)

theorem freeChainLoop_sparing (fuel c : Nat) : Sparing (freeChainLoop fuel c) := by
  induction fuel generalizing c with
  | zero => exact .stuck
  | succ fuel ih =>
    rw [freeChainLoop]
    split
    · refine .bind (.lift fun _ ho => fatReadEntry_spares c ho) fun r => ?_
      cases r with
      | none => exact .pure ()
      | some next =>
        refine .bind (.lift fun _ ho => fatWriteEntry_spares c clusterFree ho) fun _ => ?_
        refine .bind (x := modify _) ?_ fun _ => ?_
        · intro fs a fs' _ h
          obtain rfl := congrArg Prod.snd (Option.some.inj h)
          exact ⟨by constructor <;> rfl, fun _ _ => rfl⟩
        · split
          · exact .pure ()
          · exact ih next
    · exact .pure ()

/-! ## Directories -/

theorem findLoop_sparing (name : List UInt8) (fuel c : Nat) (lfn : Lfn) : Sparing (findLoop name fuel c lfn) := by
  induction fuel generalizing c lfn with
  | zero => exact .stuck
  | succ fuel ih =>
    rw [findLoop]
    split
    · refine .bind (.lift fun fs _ => readCluster_spares c fs) fun r => ?_
      cases r with
      | none => exact .pure none
      | some buf =>
        refine .get_bind fun s => ?_
        cases findSlots buf c name (entriesPerCluster s.vol) 0 lfn with
        | stop => exact .pure none
        | hit info => exact .pure (some info)
        | more lfn' => exact .bind (.lift fun _ ho => fat32NextCluster_spares c ho) fun next => ih next lfn'
    · exact .pure none

/-- What is found is in a cluster of the data area. -/
theorem findLoop_dirCluster {name : List UInt8} {fuel c : Nat} {lfn : Lfn} {info : FileInfo}
    (h : findLoop name fuel c lfn fs = some (some info, fs')) : 2 ≤ info.dirCluster := by
  induction fuel generalizing c lfn fs with
  | zero => cases h
  | succ fuel ih =>
    rw [findLoop] at h
    split at h
    · rename_i hc
      obtain ⟨r, fs1, -, h⟩ := bind_inv h
      cases r with
      | none => cases h
      | some buf =>
        dsimp only at h
        rw [bind_run (get_run _)] at h
        cases hslots : findSlots buf c name (entriesPerCluster fs1.vol) 0 lfn with
        | stop =>
          rw [hslots] at h
          cases h
        | hit info' =>
          rw [hslots] at h
          obtain rfl : info' = info := by
            simpa using congrArg (Option.map Prod.fst)
              (show some (some info', fs1) = some (some info, fs') from h)
          rw [(findSlots_hit buf hslots).2.2.1]
          exact hc.1
        | more lfn' =>
          rw [hslots] at h
          obtain ⟨next, fs2, -, h⟩ := bind_inv h
          exact ih h
    · cases h

theorem fat32Find_sparing (dir : Nat) (name : List UInt8) : Sparing (fat32Find dir name) := by
  refine .get_bind fun s => .bind (.lift fun fs _ => malloc_spares fs) fun r => ?_
  cases r with
  | none => exact .pure none
  | some _ => exact findLoop_sparing name maxSteps _ noLfn

theorem fat32Find_dirCluster {dir : Nat} {name : List UInt8} {info : FileInfo}
    (h : fat32Find dir name fs = some (some info, fs')) : 2 ≤ info.dirCluster := by
  rw [fat32Find, bind_run (get_run _)] at h
  obtain ⟨r, fs1, -, h⟩ := bind_inv h
  cases r with
  | none => cases h
  | some _ => exact findLoop_dirCluster h

theorem useSlots_spares {c : Nat} (buf : Buf) (i : Nat) (name : List UInt8) (attr new : Nat)
    (ho : Ordered fs.vol) (hc : 2 ≤ c) : Spares fs (useSlots buf c i name attr new fs).2 := by
  have h := dosNow_spares fs
  exact h.trans (writeCluster_spares _ (ho.of_spares h) hc)

theorem extendDir_spares (c : Nat) (ho : Ordered fs.vol) : Spares fs (extendDir c fs).2 := by
  obtain ⟨h, hnew⟩ := fat32AllocClusters_spares ho
  rw [extendDir]
  split
  · rename_i hr
    rwa [hr] at h
  · rename_i new fs1 hne hr
    rw [hr] at h hnew
    have h1 := h.trans (fatWriteEntry_spares c new (ho.of_spares h))
    have h2 := h1.trans (fatWriteEntry_spares new clusterEoc (ho.of_spares h1))
    exact h2.trans (writeCluster_spares _ (ho.of_spares h2)
      (hnew.resolve_left hne))

theorem nextDirCluster_spares (c : Nat) (ho : Ordered fs.vol) : Spares fs (nextDirCluster c fs).2 := by
  have h := fat32NextCluster_spares c ho
  rw [nextDirCluster]
  dsimp only
  split
  · exact h.trans (extendDir_spares c (ho.of_spares h))
  · exact h

theorem createLoop_sparing (name : List UInt8) (attr new fuel c : Nat) : Sparing (createLoop name attr new fuel c) := by
  induction fuel generalizing c with
  | zero => exact .stuck
  | succ fuel ih =>
    rw [createLoop]
    split
    · rename_i hc
      refine .bind (.lift fun fs _ => readCluster_spares c fs) fun r => ?_
      cases r with
      | none => exact .pure none
      | some buf =>
        refine .get_bind fun s => ?_
        split
        · exact .lift fun _ ho => useSlots_spares buf _ name attr new ho hc.1
        · refine .bind (.lift fun _ ho => nextDirCluster_spares c ho) fun next => ?_
          split
          · exact .pure none
          · exact ih next
    · exact .pure none

theorem newEntryCluster_spares (dir attr : Nat) (ho : Ordered fs.vol) : Spares fs (newEntryCluster dir attr fs).2 := by
  obtain ⟨h, hnew⟩ := fat32AllocClusters_spares ho
  rw [newEntryCluster]
  split
  · rename_i hr
    rwa [hr] at h
  · rename_i new fs1 hne hr
    rw [hr] at h hnew
    split
    · exact h
    · have hm := h.trans (malloc_spares fs1)
      rw [initDirectory]
      split
      · rename_i hmal
        rwa [hmal] at hm
      · rename_i hmal
        rw [hmal] at hm
        exact hm.trans (writeCluster_spares _ (ho.of_spares hm)
          (hnew.resolve_left hne))

theorem fat32Create_sparing (dir : Nat) (name : List UInt8) (attr : Nat) : Sparing (fat32Create dir name attr) := by
  refine .get_bind fun s => ?_
  split
  · exact .pure none
  · refine .get_bind fun s => .bind (fat32Find_sparing _ name) fun r => ?_
    cases r with
    | some existing => exact .pure (some existing)
    | none =>
      refine .bind (.lift fun _ ho => newEntryCluster_spares _ attr ho) fun new => ?_
      split
      · exact .pure none
      · refine .bind (.lift fun fs _ => malloc_spares fs) fun r => ?_
        cases r with
        | none => exact .pure none
        | some _ => exact createLoop_sparing name attr new maxSteps _

theorem markDeleted_spares (info : FileInfo) (ho : Ordered fs.vol) (hc : 2 ≤ info.dirCluster) :
    Spares fs (markDeleted info fs).2 := by
  have hm := malloc_spares fs
  rw [markDeleted]
  split
  · rename_i h
    rwa [h] at hm
  · rename_i fs1 h
    rw [h] at hm
    have hr := hm.trans (readCluster_spares info.dirCluster fs1)
    split
    · rename_i h
      rwa [h] at hr
    · rename_i h
      rw [h] at hr
      exact hr.trans (writeCluster_spares _ (ho.of_spares hr) hc)

theorem fat32Delete_sparing (dir : Nat) (name : List UInt8) : Sparing (fat32Delete dir name) := by
  refine .get_bind fun s => ?_
  split
  · exact .pure false
  · refine .get_bind fun s => ?_
    refine .bind_of (fun r => ∀ info, r = some info → 2 ≤ info.dirCluster) (fat32Find_sparing _ name)
      (fun _ _ _ h info hinfo => fat32Find_dirCluster (hinfo ▸ h)) fun r hr => ?_
    cases r with
    | none => exact .pure false
    | some info =>
      dsimp only
      split
      · refine .bind (freeChainLoop_sparing maxSteps info.firstCluster) fun _ => ?_
        exact .lift fun _ ho => markDeleted_spares info ho (hr info rfl)
      · exact .lift fun _ ho => markDeleted_spares info ho (hr info rfl)

/-! ## Files -/

theorem lastClusterLoop_sparing (fuel c : Nat) : Sparing (lastClusterLoop fuel c) := by
  induction fuel generalizing c with
  | zero => exact .stuck
  | succ fuel ih =>
    rw [lastClusterLoop]
    split
    · exact .pure c
    · refine .bind (.lift fun _ ho => fat32NextCluster_spares c ho) fun next => ?_
      split
      · exact .pure c
      · exact ih next

theorem fat32Open_sparing (dir : Nat) (name : List UInt8) (mode : Mode) : Sparing (fat32Open dir name mode) := by
  have hnew : ∀ dir, Sparing (openNew dir name) := fun dir =>
    .bind (fat32Create_sparing dir name attrArchive) fun _ => .pure _
  refine .get_bind fun s => ?_
  split
  · exact .pure none
  · refine .get_bind fun s => .bind (fat32Find_sparing _ name) fun found => ?_
    cases mode with
    | r => exact .pure _
    | rw => exact .pure _
    | w =>
      refine .bind ?_ fun _ => hnew _
      cases found with
      | none => exact .pure ()
      | some _ => exact .bind (fat32Delete_sparing _ name) fun _ => .pure ()
    | a =>
      cases found with
      | none => exact hnew _
      | some info => exact .bind (lastClusterLoop_sparing maxSteps info.firstCluster) fun _ => .pure _
    | other => exact .pure none

theorem fat32Close_spares (fp : File) (ho : Ordered fs.vol) : Spares fs (fat32Close fp fs) := by
  rw [fat32Close]
  split
  · rename_i hfp
    have hm := malloc_spares fs
    split
    · rename_i h
      rwa [h] at hm
    · rename_i fs1 h
      rw [h] at hm
      have hr := hm.trans (readCluster_spares fp.dirCluster fs1)
      split
      · rename_i h
        rwa [h] at hr
      · rename_i fs2 h
        rw [h] at hr
        have hd := hr.trans (dosNow_spares fs2)
        exact hd.trans (writeCluster_spares _ (ho.of_spares hd) hfp.2.2)
  · exact .refl fs

theorem prevCluster_sparing (fp : File) : Sparing (prevCluster fp) := by
  have hloop : ∀ cluster fuel prev c, Sparing (prevClusterLoop cluster fuel prev c) := by
    intro cluster fuel
    induction fuel with
    | zero => exact fun _ _ => .stuck
    | succ fuel ih =>
      intro prev c
      rw [prevClusterLoop]
      split
      · refine .bind (.lift fun _ ho => fat32NextCluster_spares c ho) fun next => ?_
        split
        · exact .pure prev
        · exact ih c next
      · exact .pure prev
  rw [prevCluster]
  split
  · split
    · exact .pure _
    · exact hloop _ _ _ _
  · exact .pure 0

/-- There is a cluster of the data area to write to. -/
theorem ensureCluster_spares (fp : File) (prev : Nat) (ho : Ordered fs.vol) : Spares fs (ensureCluster fp prev fs).2 ∧
      ∀ fp', (ensureCluster fp prev fs).1 = some fp' → 2 ≤ fp'.currentCluster := by
  rw [ensureCluster]
  split
  · rename_i hc
    refine ⟨.refl fs, fun fp' h => ?_⟩
    rw [← Option.some.inj h]
    exact hc.1
  · obtain ⟨h, hnew⟩ := fat32AllocClusters_spares ho
    rw [addCluster]
    split
    · rename_i hr
      rw [hr] at h
      exact ⟨h, fun _ h' => by cases h'⟩
    · rename_i new fs1 hne hr
      rw [hr] at h hnew
      have hlink : Spares fs (if 2 ≤ fp.firstCluster ∧ IsCluster prev
          then (fatWriteEntry prev new fs1).2 else fs1) := by
        split
        · exact h.trans (fatWriteEntry_spares prev new (ho.of_spares h))
        · exact h
      refine ⟨hlink.trans (fatWriteEntry_spares new clusterEoc (ho.of_spares hlink)), fun fp' h' => ?_⟩
      rw [← Option.some.inj h']
      exact hnew.resolve_left hne

theorem writePart_spares {c : Nat} (pos : Nat) (src : List UInt8) (ho : Ordered fs.vol)
    (hc : 2 ≤ c) : Spares fs (writePart c pos src fs).2 := by
  rw [writePart]
  split
  · exact writeCluster_spares _ ho hc
  · have hm := malloc_spares fs
    split
    · rename_i h
      rwa [h] at hm
    · rename_i fs1 h
      rw [h] at hm
      have hr := hm.trans (readCluster_spares c fs1)
      split
      · rename_i h
        rwa [h] at hr
      · rename_i h
        rw [h] at hr
        exact hr.trans (writeCluster_spares _ (ho.of_spares hr) hc)

theorem advance_spares (fp : File) (n : Nat) (ho : Ordered fs.vol) : Spares fs (advance fp n fs).2 := by
  rw [advance]
  split
  · exact fat32NextCluster_spares _ ho
  · exact .refl fs

theorem writeLoop_spares {fuel prev : Nat} {src : List UInt8} {fp : File} (ho : Ordered fs.vol) :
    Spares fs (writeLoop fuel src prev fp fs).2.2 := by
  induction fuel generalizing src prev fp fs with
  | zero => exact .refl fs
  | succ fuel ih =>
    rw [writeLoop]
    split
    · exact .refl fs
    · obtain ⟨h, hc⟩ := ensureCluster_spares fp prev ho
      split
      · rename_i he
        rwa [he] at h
      · rename_i fp1 fs1 he
        rw [he] at h hc
        dsimp only
        have hw := h.trans (writePart_spares fp1.pos
          (src.take (inCluster fs1.vol fp1.pos src.length)) (ho.of_spares h) (hc fp1 rfl))
        split
        · rename_i he
          rwa [he] at hw
        · rename_i fs2 he
          rw [he] at hw
          have ha := hw.trans (advance_spares { fp1 with
            fileSize := grow fp1 (inCluster fs1.vol fp1.pos src.length) }
            (inCluster fs1.vol fp1.pos src.length) (ho.of_spares hw))
          exact ha.trans (ih (ho.of_spares ha))

theorem fat32Write_sparing (fp : File) (src : List UInt8) : Sparing (fat32Write fp src) := by
  rw [fat32Write]
  split
  · exact .pure _
  · exact .bind (prevCluster_sparing fp) fun _ => .lift fun _ ho => writeLoop_spares ho

end WuBuOS.Fat32
