import WuBuOS.Kernel.Fat32.Volume
import WuBuOS.Lib.Runs

/-!
# The table behind the cache

The *logical* table of a volume is what `fat_read_entry` would return if nothing failed: the entry in
the cache where the cache holds its sector, and the one in the first copy on disk elsewhere.
`Consistent fs` says that the cache can be relied on: the disk agrees with the logical table except
where the cache is dirty, and a dirty cache is a sector of the table.

Everything the functions on the table do to a volume is of two kinds.  `Keeps fs fs'`: whatever
happened to the cache and to the disk, the logical table is the same, and the disk is the same outside
the two copies of the table; this is what reading, flushing, evicting and failing do.  `Stores fs fs'
c v`: one entry of the logical table got the low 28 bits of `v`.  The statement about every sequence of
calls, `fatCache_refines`, is the induction over these two.
-/

namespace WuBuOS.Fat32

open Bytes Runs

variable {c : Nat}

/-! ## Entries -/

theorem low28_eq (n : Nat) : low28 n = n % 2 ^ 28 := Nat.and_two_pow_sub_one_eq_mod n 28

/-- The low bits of an entry are replaced. -/
theorem low28_mergeEntry (old value : Nat) : low28 (mergeEntry old value) = low28 value := by
  rw [low28_eq, low28_eq, mergeEntry, Nat.or_mod_two_pow, Nat.and_mod_two_pow, Nat.and_mod_two_pow,
    show (0xF0000000 : Nat) % 2 ^ 28 = 0 by decide, Nat.and_zero, Nat.zero_or,
    show (0x0FFFFFFF : Nat) % 2 ^ 28 = 2 ^ 28 - 1 by decide, Nat.and_two_pow_sub_one_eq_mod,
    Nat.mod_mod]

/-- The high bits of an entry are kept. -/
theorem mergeEntry_div {old : Nat} (value : Nat) (h : old < 2 ^ 32) : mergeEntry old value / 2 ^ 28 = old / 2 ^ 28 := by
  have hlt : old / 2 ^ 28 < 2 ^ 4 := by omega
  rw [mergeEntry, Nat.or_div_two_pow, Nat.and_div_two_pow, Nat.and_div_two_pow,
    show (0xF0000000 : Nat) / 2 ^ 28 = 2 ^ 4 - 1 by decide,
    show (0x0FFFFFFF : Nat) / 2 ^ 28 = 0 by decide, Nat.and_two_pow_sub_one_eq_mod,
    Nat.mod_eq_of_lt hlt, Nat.and_zero, Nat.or_zero]

theorem mergeEntry_lt {old : Nat} (value : Nat) (h : old < 2 ^ 32) : mergeEntry old value < 2 ^ 32 := by
  have := mergeEntry_div value h
  omega

/-- The entry of a cluster in the copy of the table that begins at `lba`. -/
def tableEntry (disk : Buf) (lba c : Nat) : Nat :=
  get disk ((lba + c / entriesPerSector) * sectorSize + 4 * (c % entriesPerSector)) 4

/-- The logical entry of a cluster, all 32 bits of it. -/
def Fs.entry (fs : Fs) (c : Nat) : Nat :=
  match fs.vol.fatCache with
  | some cache =>
    if c / entriesPerSector = fs.vol.cachedFatSector then entryAt cache (c % entriesPerSector)
    else tableEntry fs.disk fs.vol.fat1Lba c
  | none => tableEntry fs.disk fs.vol.fat1Lba c

/-- The table has an entry for the cluster. -/
def InTable (vol : Volume) (c : Nat) : Prop := c / entriesPerSector < vol.sectorsPerFat

/-- A sector on disk, as a buffer. -/
theorem entryAt_sectors (disk : Buf) (lba c : Nat) :
    entryAt (sectors disk (lba + c / entriesPerSector) 1) (c % entriesPerSector) = tableEntry disk lba c := by
  have hc : c % entriesPerSector < 128 := Nat.mod_lt _ (by decide)
  refine get_shift fun i hi => ?_
  rw [sectors, if_pos (by simp only [sectorSize]; omega), Nat.add_assoc]

/-- A sector is written somewhere else. -/
theorem tableEntry_write_of_ne {disk buf : Buf} {lba s c : Nat} (h : lba + c / entriesPerSector ≠ s) :
    tableEntry (write disk (s * sectorSize) (1 * sectorSize) buf) lba c = tableEntry disk lba c := by
  have hc : c % entriesPerSector < 128 := Nat.mod_lt _ (by decide)
  refine get_write_outside ?_
  simp only [sectorSize]
  omega

/-- A sector of the table is written. -/
theorem tableEntry_write {disk buf : Buf} {lba c : Nat} :
    tableEntry (write disk ((lba + c / entriesPerSector) * sectorSize) (1 * sectorSize) buf) lba c =
      entryAt buf (c % entriesPerSector) := by
  have hc : c % entriesPerSector < 128 := Nat.mod_lt _ (by decide)
  refine get_shift fun i hi => ?_
  rw [Nat.add_assoc]
  exact write_inside (by simp only [sectorSize]; omega)

/-! ## The cache can be relied on -/

/-- The copy of the table at `lba` agrees with the logical table, except where the cache is dirty. -/
def Synced (fs : Fs) (lba : Nat) : Prop :=
  ∀ c, InTable fs.vol c → ¬(fs.vol.cachedDirty = true ∧ c / entriesPerSector = fs.vol.cachedFatSector) →
    tableEntry fs.disk lba c = fs.entry c

/-- **The cache can be relied on.** -/
structure Consistent (fs : Fs) : Prop where
  fat2 : fs.vol.fat2Lba = fs.vol.fat1Lba + fs.vol.sectorsPerFat
  dirty : fs.vol.cachedDirty = true →
    fs.vol.fatCache ≠ none ∧ fs.vol.cachedFatSector < fs.vol.sectorsPerFat
  empty : fs.vol.fatCache = none → fs.vol.sectorsPerFat ≤ fs.vol.cachedFatSector
  synced : Synced fs fs.vol.fat1Lba

theorem Consistent.env {fs : Fs} (h : Consistent fs) (env : Nat → Answer) : Consistent { fs with env := env } :=
  ⟨h.fat2, h.dirty, h.empty, h.synced⟩

/-- The volume is the same, but for the cache and the counts of clusters. -/
structure SameShape (v v' : Volume) : Prop where
  mounted : v'.mounted = v.mounted
  sectorsPerCluster : v'.sectorsPerCluster = v.sectorsPerCluster
  bytesPerCluster : v'.bytesPerCluster = v.bytesPerCluster
  numFats : v'.numFats = v.numFats
  sectorsPerFat : v'.sectorsPerFat = v.sectorsPerFat
  rootCluster : v'.rootCluster = v.rootCluster
  fat1Lba : v'.fat1Lba = v.fat1Lba
  fat2Lba : v'.fat2Lba = v.fat2Lba
  dataLba : v'.dataLba = v.dataLba
  totalClusters : v'.totalClusters = v.totalClusters

theorem SameShape.refl (v : Volume) : SameShape v v := by constructor <;> rfl

theorem SameShape.trans {v v' v'' : Volume} (h : SameShape v v') (h' : SameShape v' v'') : SameShape v v'' where
  mounted := h'.1.trans h.1
  sectorsPerCluster := h'.2.trans h.2
  bytesPerCluster := h'.3.trans h.3
  numFats := h'.4.trans h.4
  sectorsPerFat := h'.5.trans h.5
  rootCluster := h'.6.trans h.6
  fat1Lba := h'.7.trans h.7
  fat2Lba := h'.8.trans h.8
  dataLba := h'.9.trans h.9
  totalClusters := h'.10.trans h.10

theorem SameShape.inTable {v v' : Volume} (h : SameShape v v') : InTable v' c ↔ InTable v c := by
  rw [InTable, InTable, h.sectorsPerFat]

/-- Answers that are still to come after some have been given. -/
def Later (env env' : Nat → Answer) : Prop := ∃ k, ∀ n, env' n = env (n + k)

theorem Later.refl (env : Nat → Answer) : Later env env := ⟨0, fun _ => rfl⟩

theorem Later.trans {e e' e'' : Nat → Answer} (h : Later e e') (h' : Later e' e'') : Later e e'' := by
  obtain ⟨k, hk⟩ := h
  obtain ⟨l, hl⟩ := h'
  exact ⟨l + k, fun n => by rw [hl, hk, Nat.add_assoc]⟩

/-- What every step keeps: the volume's shape, the reliability of the cache, the agreement of the
second copy, and everything on disk outside the table. -/
structure Frame (fs fs' : Fs) : Prop where
  shape : SameShape fs.vol fs'.vol
  consistent : Consistent fs'
  second : 2 ≤ fs.vol.numFats → Synced fs fs.vol.fat2Lba → Synced fs' fs.vol.fat2Lba
  outside : ∀ x, x < fs.vol.fat1Lba * sectorSize ∨
    (fs.vol.fat2Lba + fs.vol.sectorsPerFat) * sectorSize ≤ x → fs'.disk x = fs.disk x
  env : Later fs.env fs'.env

/-- **Nothing happened to the logical table.** -/
structure Keeps (fs fs' : Fs) : Prop extends Frame fs fs' where
  entry : ∀ c, InTable fs.vol c → fs'.entry c = fs.entry c

theorem Frame.trans {fs fs' fs'' : Fs} (h : Frame fs fs') (h' : Frame fs' fs'') : Frame fs fs'' where
  shape := h.shape.trans h'.shape
  consistent := h'.consistent
  second := fun hn hs => by
    have := h'.second (by rwa [h.shape.numFats]) (by rw [h.shape.fat2Lba]; exact h.second hn hs)
    rwa [h.shape.fat2Lba] at this
  outside := fun x hx => by
    rw [h'.outside x (by rwa [h.shape.fat1Lba, h.shape.fat2Lba, h.shape.sectorsPerFat])]
    exact h.outside x hx
  env := h.env.trans h'.env

theorem Keeps.refl {fs : Fs} (h : Consistent fs) : Keeps fs fs where
  shape := .refl _
  consistent := h
  second := fun _ hs => hs
  outside := fun _ _ => rfl
  env := .refl _
  entry := fun _ _ => rfl

theorem Keeps.trans {fs fs' fs'' : Fs} (h : Keeps fs fs') (h' : Keeps fs' fs'') : Keeps fs fs'' where
  toFrame := h.toFrame.trans h'.toFrame
  entry := fun c hc => (h'.entry c (h.shape.inTable.2 hc)).trans (h.entry c hc)

theorem Fs.entry_cached (fs : Fs) {cache : Buf} (h : fs.vol.fatCache = some cache)
    (hc : c / entriesPerSector = fs.vol.cachedFatSector) :
    fs.entry c = entryAt cache (c % entriesPerSector) := by
  rw [Fs.entry, h]
  exact if_pos hc

theorem Fs.entry_uncached (fs : Fs) (h : fs.vol.fatCache = none ∨ c / entriesPerSector ≠ fs.vol.cachedFatSector) :
    fs.entry c = tableEntry fs.disk fs.vol.fat1Lba c := by
  rw [Fs.entry]
  split
  · rename_i cache hcache
    exact if_neg (h.resolve_left (by simp [hcache]))
  · rfl

theorem Fs.entry_lt (fs : Fs) (c : Nat) : fs.entry c < 2 ^ 32 := by
  rw [Fs.entry]
  split
  · split <;> exact get_lt ..
  · exact get_lt ..

/-! ## Flushing -/

variable {fs fs' : Fs} {cache : Buf}

/-- A sector of the disk is overwritten, on request. -/
def Fs.wrote (fs : Fs) (s : Nat) (b : Buf) : Fs :=
  { fs with
    env := fun n => fs.env (n + 1)
    disk := write fs.disk (s * sectorSize) (1 * sectorSize) b }

/-- A write overwrites the sector, with something else if it fails. -/
theorem blkWrite_snd (s : Nat) (buf : Buf) (fs : Fs) :
    ∃ b, (blkWrite s 1 buf fs).2 = fs.wrote s b ∧ ((blkWrite s 1 buf fs).1 = true → b = buf) :=
  ⟨_, rfl, fun h => if_pos h⟩

/-- A sector other than the cached one is not the cached one's place, in neither copy. -/
theorem Consistent.other (h : Consistent fs) (hlt : fs.vol.cachedFatSector < fs.vol.sectorsPerFat)
    {lba c : Nat} (hlba : lba = fs.vol.fat1Lba ∨ lba = fs.vol.fat2Lba) (hc : InTable fs.vol c)
    (hne : c / entriesPerSector ≠ fs.vol.cachedFatSector) :
    fs.vol.fat1Lba + c / entriesPerSector ≠ lba + fs.vol.cachedFatSector ∧
      fs.vol.fat2Lba + c / entriesPerSector ≠ lba + fs.vol.cachedFatSector := by
  have hfat2 := h.fat2
  unfold InTable at hc
  generalize c / entriesPerSector = k at *
  omega

/-- What is outside the table is outside the cached one's place. -/
theorem Consistent.outside_table (h : Consistent fs) (hlt : fs.vol.cachedFatSector < fs.vol.sectorsPerFat) {lba x : Nat}
    (hlba : lba = fs.vol.fat1Lba ∨ lba = fs.vol.fat2Lba)
    (hx : x < fs.vol.fat1Lba * sectorSize ∨ (fs.vol.fat2Lba + fs.vol.sectorsPerFat) * sectorSize ≤ x) :
    x < (lba + fs.vol.cachedFatSector) * sectorSize ∨
      (lba + fs.vol.cachedFatSector) * sectorSize + 1 * sectorSize ≤ x := by
  have hfat2 := h.fat2
  simp only [sectorSize] at hx ⊢
  rcases hlba with rfl | rfl <;> rcases hx with hx | hx <;> omega

/-- Overwriting the sector of the dirty cache, in either copy, changes nothing that is relied on. -/
theorem Consistent.wrote (h : Consistent fs) (hd : fs.vol.cachedDirty = true) {lba : Nat}
    (hlba : lba = fs.vol.fat1Lba ∨ lba = fs.vol.fat2Lba) (b : Buf) :
    Keeps fs (fs.wrote (lba + fs.vol.cachedFatSector) b) := by
  obtain ⟨hcache, hlt⟩ := h.dirty hd
  obtain ⟨cache, hcache⟩ := Option.ne_none_iff_exists'.1 hcache
  have hentry : ∀ c, InTable fs.vol c → (fs.wrote (lba + fs.vol.cachedFatSector) b).entry c = fs.entry c := by
    intro c hc
    by_cases hs : c / entriesPerSector = fs.vol.cachedFatSector
    · exact (Fs.entry_cached (fs.wrote _ b) hcache hs).trans (fs.entry_cached hcache hs).symm
    · rw [fs.entry_uncached (Or.inr hs)]
      refine (Fs.entry_uncached (fs.wrote _ b) (Or.inr hs)).trans ?_
      exact tableEntry_write_of_ne (h.other hlt hlba hc hs).1
  refine
    { shape := .refl _
      consistent := ⟨h.fat2, h.dirty, h.empty, fun c hc hns => ?_⟩
      second := fun _ hsync c hc hns => ?_
      outside := fun x hx => ?_
      env := ⟨1, fun _ => rfl⟩
      entry := hentry }
  · have hs : c / entriesPerSector ≠ fs.vol.cachedFatSector := fun hs => hns ⟨hd, hs⟩
    rw [hentry c hc, ← h.synced c hc hns]
    exact tableEntry_write_of_ne (h.other hlt hlba hc hs).1
  · have hs : c / entriesPerSector ≠ fs.vol.cachedFatSector := fun hs => hns ⟨hd, hs⟩
    rw [hentry c hc, ← hsync c hc hns]
    exact tableEntry_write_of_ne (h.other hlt hlba hc hs).2
  · exact write_outside (h.outside_table hlt hlba hx)

/-- Once the cached sector is on disk, the cache is clean. -/
theorem Consistent.setClean (h : Consistent fs) (h1 : ∀ c, c / entriesPerSector = fs.vol.cachedFatSector →
      tableEntry fs.disk fs.vol.fat1Lba c = fs.entry c)
    (h2 : 2 ≤ fs.vol.numFats → ∀ c, c / entriesPerSector = fs.vol.cachedFatSector →
      tableEntry fs.disk fs.vol.fat2Lba c = fs.entry c) : Keeps fs fs.setClean where
  shape := by constructor <;> rfl
  consistent :=
    { fat2 := h.fat2
      dirty := fun hd' => absurd hd' Bool.false_ne_true
      empty := h.empty
      synced := fun c hc _ => by
        by_cases hs : c / entriesPerSector = fs.vol.cachedFatSector
        · exact h1 c hs
        · exact h.synced c hc fun hds => hs hds.2 }
  second := fun hn hsync c hc _ => by
    by_cases hs : c / entriesPerSector = fs.vol.cachedFatSector
    · exact h2 hn c hs
    · exact hsync c hc fun hds => hs hds.2
  outside := fun _ _ => rfl
  env := .refl _
  entry := fun _ _ => rfl

/-- The cached sector, written to the first copy. -/
theorem tableEntry_wrote (fs : Fs) (lba : Nat) (hc : c / entriesPerSector = fs.vol.cachedFatSector) :
    tableEntry (fs.wrote (lba + fs.vol.cachedFatSector) cache).disk lba c = entryAt cache (c % entriesPerSector) := by
  rw [← hc]
  exact tableEntry_write

/-- The cached sector is written to the first copy, and there is no second. -/
theorem Consistent.flush_one (h : Consistent fs) (hcache : fs.vol.fatCache = some cache)
    (hd : fs.vol.cachedDirty = true) (hn : fs.vol.numFats < 2) :
    Keeps fs (fs.wrote (fs.vol.fat1Lba + fs.vol.cachedFatSector) cache).setClean := by
  have hk := h.wrote hd (Or.inl rfl) cache
  refine hk.trans (hk.consistent.setClean (fun c hc => ?_) fun hn' => absurd hn (Nat.not_lt.2 hn'))
  exact (tableEntry_wrote fs fs.vol.fat1Lba hc).trans (Fs.entry_cached (fs.wrote _ cache) hcache hc).symm

/-- The cached sector is written to both copies. -/
theorem Consistent.flush_two (h : Consistent fs) (hcache : fs.vol.fatCache = some cache)
    (hd : fs.vol.cachedDirty = true) :
    Keeps fs ((fs.wrote (fs.vol.fat1Lba + fs.vol.cachedFatSector) cache).wrote
      (fs.vol.fat2Lba + fs.vol.cachedFatSector) cache).setClean := by
  obtain ⟨-, hlt⟩ := h.dirty hd
  have hfat2 := h.fat2
  have hk1 := h.wrote hd (Or.inl rfl) cache
  have hk2 := hk1.consistent.wrote hd (Or.inr rfl) cache
  refine (hk1.trans hk2).trans (hk2.consistent.setClean (fun c hc => ?_) fun _ c hc => ?_)
  · rw [Fs.entry_cached ((fs.wrote _ cache).wrote _ cache) hcache hc]
    refine Eq.trans ?_ (tableEntry_wrote fs fs.vol.fat1Lba hc)
    refine tableEntry_write_of_ne ?_
    rw [show c / entriesPerSector = fs.vol.cachedFatSector from hc]
    show fs.vol.fat1Lba + fs.vol.cachedFatSector ≠ fs.vol.fat2Lba + fs.vol.cachedFatSector
    omega
  · rw [Fs.entry_cached ((fs.wrote _ cache).wrote _ cache) hcache hc]
    exact tableEntry_wrote (fs.wrote _ cache) fs.vol.fat2Lba hc

/-- **`fat32_flush`**: the logical table is the same, and after success nothing is dirty. -/
theorem fat32Flush_keeps (h : Consistent fs) : Keeps fs (fat32Flush fs).2 ∧
      ((fat32Flush fs).1 = true → (fat32Flush fs).2.vol.cachedDirty = false) := by
  rw [fat32Flush]
  split
  · rename_i hnone
    refine ⟨.refl h, fun _ => ?_⟩
    by_contra hd
    exact (h.dirty (by simpa using hd)).1 hnone
  · rename_i cache hcache
    split
    · exact ⟨.refl h, fun _ => ‹_›⟩
    · rename_i hd
      have hd : fs.vol.cachedDirty = true := by simpa using hd
      obtain ⟨b1, hb1, hok1⟩ := blkWrite_snd (fs.vol.fat1Lba + fs.vol.cachedFatSector) cache fs
      have hk1 := h.wrote hd (Or.inl rfl) b1
      dsimp only
      rw [hb1]
      split
      · exact ⟨hk1, fun hf => absurd hf Bool.false_ne_true⟩
      · rename_i h1
        obtain rfl := hok1 (by simpa using h1)
        split
        · exact ⟨h.flush_one hcache hd ‹_›, fun _ => rfl⟩
        · obtain ⟨b2, hb2, hok2⟩ := blkWrite_snd (fs.vol.fat2Lba + fs.vol.cachedFatSector) b1
            (fs.wrote (fs.vol.fat1Lba + fs.vol.cachedFatSector) b1)
          rw [hb2]
          split
          · exact ⟨hk1.trans (hk1.consistent.wrote hd (Or.inr rfl) b2), fun hf => absurd hf Bool.false_ne_true⟩
          · rename_i h2
            obtain rfl := hok2 (by simpa using h2)
            exact ⟨h.flush_two hcache hd, fun _ => rfl⟩

/-! ## Reading and writing an entry -/

theorem Consistent.ask (h : Consistent fs) : Keeps fs fs.ask.2 where
  shape := .refl _
  consistent := ⟨h.fat2, h.dirty, h.empty, h.synced⟩
  second := fun _ hs => hs
  outside := fun _ _ => rfl
  env := ⟨1, fun _ => rfl⟩
  entry := fun _ _ => rfl

theorem Consistent.clean_of_none (h : Consistent fs) (hn : fs.vol.fatCache = none) : fs.vol.cachedDirty = false := by
  by_contra hd
  exact (h.dirty (by simpa using hd)).1 hn

/-- The volume with another sector in the cache. -/
def Fs.withCache (fs : Fs) (buf : Buf) (s : Nat) (dirty : Bool) : Fs :=
  { fs with vol :=
    { fs.vol with fatCache := some buf, cachedFatSector := s, cachedDirty := dirty } }

/-- Fresh memory for the cache is the cache of no sector. -/
theorem Consistent.setCache (h : Consistent fs) (hn : fs.vol.fatCache = none) (buf : Buf) :
    Keeps fs (fs.withCache buf fs.vol.cachedFatSector fs.vol.cachedDirty) := by
  have hclean := h.clean_of_none hn
  have hentry : ∀ c, InTable fs.vol c →
      (fs.withCache buf fs.vol.cachedFatSector fs.vol.cachedDirty).entry c = fs.entry c := by
    intro c hc
    have hne : c / entriesPerSector ≠ fs.vol.cachedFatSector :=
      Nat.ne_of_lt (Nat.lt_of_lt_of_le hc (h.empty hn))
    rw [fs.entry_uncached (Or.inl hn)]
    exact Fs.entry_uncached (fs.withCache buf ..) (Or.inr hne)
  refine
    { shape := by constructor <;> rfl
      consistent := ⟨h.fat2, fun hd => ?_, fun hn' => absurd hn' (Option.some_ne_none _), ?_⟩
      second := fun _ hs c hc hns => (hs c hc hns).trans (hentry c hc).symm
      outside := fun _ _ => rfl
      env := .refl _
      entry := hentry }
  · rw [show fs.vol.cachedDirty = true from hd] at hclean
    exact absurd hclean Bool.noConfusion
  · exact fun c hc hns => (h.synced c hc hns).trans (hentry c hc).symm

theorem ensureCache_keeps (h : Consistent fs) : Keeps fs (ensureCache fs).2 ∧
      ((ensureCache fs).1 = true → (ensureCache fs).2.vol.fatCache ≠ none) := by
  rw [ensureCache]
  split
  · rename_i hs
    exact ⟨.refl h, fun _ => Option.isSome_iff_ne_none.1 hs⟩
  · rename_i hs
    have hn : fs.vol.fatCache = none := by simpa using hs
    have hk := h.ask
    rw [malloc]
    cases fs.ask.1.ok with
    | true =>
      exact ⟨hk.trans (hk.consistent.setCache hn _), fun _ => Option.some_ne_none _⟩
    | false => exact ⟨hk, fun hf => absurd hf Bool.false_ne_true⟩

/-- A clean cache can be replaced by another sector of the first copy. -/
theorem Consistent.replace (h : Consistent fs) (hclean : fs.vol.cachedDirty = false) (s : Nat) :
    Keeps fs (fs.withCache (sectors fs.disk (fs.vol.fat1Lba + s) 1) s fs.vol.cachedDirty) := by
  have hns : ∀ {p : Prop}, ¬(fs.vol.cachedDirty = true ∧ p) := by simp [hclean]
  have hentry : ∀ c, InTable fs.vol c →
      (fs.withCache (sectors fs.disk (fs.vol.fat1Lba + s) 1) s fs.vol.cachedDirty).entry c = fs.entry c := by
    intro c hc
    rw [← h.synced c hc hns]
    by_cases hcs : c / entriesPerSector = s
    · refine (Fs.entry_cached (fs.withCache _ s fs.vol.cachedDirty) rfl hcs).trans ?_
      rw [← hcs]
      exact entryAt_sectors ..
    · exact Fs.entry_uncached (fs.withCache _ s fs.vol.cachedDirty) (Or.inr hcs)
  refine
    { shape := by constructor <;> rfl
      consistent := ⟨h.fat2, fun hd => ?_, fun hn => absurd hn (Option.some_ne_none _), ?_⟩
      second := fun _ hs c hc _ => (hs c hc hns).trans (hentry c hc).symm
      outside := fun _ _ => rfl
      env := .refl _
      entry := hentry }
  · rw [show fs.vol.cachedDirty = true from hd] at hclean
    exact absurd hclean Bool.noConfusion
  · exact fun c hc _ => (h.synced c hc hns).trans (hentry c hc).symm

theorem flushIfDirty_keeps (h : Consistent fs) : Keeps fs (flushIfDirty fs).2 ∧
      ((flushIfDirty fs).1 = true → (flushIfDirty fs).2.vol.cachedDirty = false) := by
  rw [flushIfDirty]
  split
  · exact fat32Flush_keeps h
  · rename_i hd
    exact ⟨.refl h, fun _ => by simpa using hd⟩

theorem loadSector_keeps (h : Consistent fs) (s : Nat) : Keeps fs (loadSector s fs).2 ∧ ((loadSector s fs).1 = true →
        (loadSector s fs).2.vol.fatCache ≠ none ∧ (loadSector s fs).2.vol.cachedFatSector = s) := by
  obtain ⟨hk, hclean⟩ := flushIfDirty_keeps h
  rw [loadSector]
  split
  · exact ⟨hk, fun hf => absurd hf Bool.false_ne_true⟩
  · rename_i hok
    have hclean := hclean (by simpa using hok)
    have hk' := hk.consistent.ask
    rw [blkRead]
    cases (flushIfDirty fs).2.ask.1.ok with
    | true =>
      refine ⟨(hk.trans hk').trans (hk'.consistent.replace hclean s), fun _ => ?_⟩
      exact ⟨Option.some_ne_none _, rfl⟩
    | false => exact ⟨hk.trans hk', fun hf => absurd hf Bool.false_ne_true⟩

theorem cacheForRead_keeps (h : Consistent fs) (s : Nat) : Keeps fs (cacheForRead s fs).2 ∧
      ((cacheForRead s fs).1 = true → (cacheForRead s fs).2.vol.fatCache ≠ none ∧
          (cacheForRead s fs).2.vol.cachedFatSector = s) := by
  obtain ⟨hk, -⟩ := ensureCache_keeps h
  obtain ⟨hk', hload⟩ := loadSector_keeps hk.consistent s
  rw [cacheForRead]
  dsimp only
  split
  · split
    · exact ⟨hk, fun hf => absurd hf Bool.false_ne_true⟩
    · exact ⟨hk.trans hk', hload⟩
  · rename_i hc
    rw [not_or, not_not] at hc
    exact ⟨.refl h, fun _ => ⟨by simpa using hc.1, hc.2.symm⟩⟩

theorem cacheForWrite_keeps (h : Consistent fs) (s : Nat) : Keeps fs (cacheForWrite s fs).2 ∧
      ((cacheForWrite s fs).1 = true → (cacheForWrite s fs).2.vol.fatCache ≠ none ∧
          (cacheForWrite s fs).2.vol.cachedFatSector = s) := by
  obtain ⟨hk, hsome⟩ := ensureCache_keeps h
  obtain ⟨hk', hload⟩ := loadSector_keeps hk.consistent s
  rw [cacheForWrite]
  split
  · exact ⟨hk, fun hf => absurd hf Bool.false_ne_true⟩
  · rename_i hok
    split
    · exact ⟨hk.trans hk', hload⟩
    · rename_i hs
      exact ⟨hk, fun _ => ⟨hsome (by simpa using hok), (not_not.1 hs).symm⟩⟩

/-- **`fat_read_entry`** changes nothing, and returns the low bits of the logical entry or fails. -/
theorem fatReadEntry_spec (h : Consistent fs) (hc : InTable fs.vol c) : Keeps fs (fatReadEntry c fs).2 ∧
      ((fatReadEntry c fs).1 = none ∨ (fatReadEntry c fs).1 = some (low28 (fs.entry c))) := by
  obtain ⟨hk, hsome⟩ := cacheForRead_keeps h (c / entriesPerSector)
  rw [fatReadEntry]
  split
  · exact ⟨hk, Or.inl rfl⟩
  · rename_i hok
    obtain ⟨hne, hs⟩ := hsome (by simpa using hok)
    obtain ⟨cache, hcache⟩ := Option.ne_none_iff_exists'.1 hne
    refine ⟨hk, Or.inr ?_⟩
    rw [← hk.entry c hc, Fs.entry_cached _ hcache hs.symm, hcache]
    rfl

/-- One entry of the logical table got the low bits of a value. -/
structure Stores (fs fs' : Fs) (c v : Nat) : Prop extends Frame fs fs' where
  entry : ∀ d, InTable fs.vol d →
    fs'.entry d = if d = c then mergeEntry (fs.entry c) v else fs.entry d

/-- An entry is stored in the cache. -/
theorem Consistent.store (h : Consistent fs) {c v : Nat} (hc : InTable fs.vol c)
    (hcache : fs.vol.fatCache = some cache) (hs : fs.vol.cachedFatSector = c / entriesPerSector) :
    Stores fs (fs.withCache (put cache (4 * (c % entriesPerSector)) 4
      (mergeEntry (entryAt cache (c % entriesPerSector)) v)) fs.vol.cachedFatSector true) c v := by
  have hother : ∀ buf d, d / entriesPerSector ≠ fs.vol.cachedFatSector →
      (fs.withCache buf fs.vol.cachedFatSector true).entry d = fs.entry d := by
    intro buf d hd
    rw [fs.entry_uncached (Or.inr hd)]
    exact Fs.entry_uncached (fs.withCache buf _ true) (Or.inr hd)
  refine
    { shape := by constructor <;> rfl
      consistent := ⟨h.fat2, fun _ => ⟨Option.some_ne_none _, lt_of_eq_of_lt hs hc⟩,
        fun hn => absurd hn (Option.some_ne_none _), fun d hd hns => ?_⟩
      second := fun _ hsync d hd hns => ?_
      outside := fun _ _ => rfl
      env := .refl _
      entry := fun d hd => ?_ }
  · have hne : d / entriesPerSector ≠ fs.vol.cachedFatSector := fun he => hns ⟨rfl, he⟩
    rw [hother _ d hne]
    exact h.synced d hd fun hns' => hne hns'.2
  · have hne : d / entriesPerSector ≠ fs.vol.cachedFatSector := fun he => hns ⟨rfl, he⟩
    rw [hother _ d hne]
    exact hsync d hd fun hns' => hne hns'.2
  · by_cases hd' : d / entriesPerSector = fs.vol.cachedFatSector
    · refine (Fs.entry_cached (fs.withCache _ fs.vol.cachedFatSector true) rfl hd').trans ?_
      have hold : fs.entry c = entryAt cache (c % entriesPerSector) :=
        fs.entry_cached hcache hs.symm
      have hlt : entryAt cache (c % entriesPerSector) < 2 ^ 32 := get_lt ..
      split
      · rename_i hdc
        rw [hold, hdc, entryAt, get_put]
        exact Nat.mod_eq_of_lt (mergeEntry_lt v hlt)
      · rename_i hdc
        rw [fs.entry_cached hcache hd']
        refine get_put_outside ?_
        -- two clusters of one sector differ in their place
        have h1 := Nat.div_add_mod d entriesPerSector
        have h2 := Nat.div_add_mod c entriesPerSector
        rw [hd', hs] at h1
        omega
    · rw [hother _ d hd', if_neg]
      rintro rfl
      exact hd' hs.symm

/-- **`fat_write_entry`** stores the low bits of the value, or fails and changes nothing. -/
theorem fatWriteEntry_spec (h : Consistent fs) (hc : InTable fs.vol c) (v : Nat) :
    (fatWriteEntry c v fs).1 = false ∧ Keeps fs (fatWriteEntry c v fs).2 ∨
      (fatWriteEntry c v fs).1 = true ∧ Stores fs (fatWriteEntry c v fs).2 c v := by
  obtain ⟨hk, hsome⟩ := cacheForWrite_keeps h (c / entriesPerSector)
  rw [fatWriteEntry]
  split
  · exact Or.inl ⟨rfl, hk⟩
  · rename_i hok
    obtain ⟨hne, hs⟩ := hsome (by simpa using hok)
    obtain ⟨cache, hcache⟩ := Option.ne_none_iff_exists'.1 hne
    rw [hcache]
    have hst := hk.consistent.store (v := v) (hk.shape.inTable.2 hc) hcache hs
    refine Or.inr ⟨rfl, hk.toFrame.trans hst.toFrame, fun d hd => ?_⟩
    rw [← hk.entry c hc, ← hk.entry d hd]
    exact hst.entry d (hk.shape.inTable.2 hd)

/-! ## In any state -/

/-- What the functions on the table do whatever state the volume is in: they take answers, and nothing
but the cache of the volume changes. -/
structure Touches (fs fs' : Fs) : Prop where
  shape : SameShape fs.vol fs'.vol
  env : Later fs.env fs'.env
  freeClusters : fs'.vol.freeClusters = fs.vol.freeClusters

theorem Touches.refl (fs : Fs) : Touches fs fs := ⟨.refl _, .refl _, rfl⟩

theorem Touches.trans {fs fs' fs'' : Fs} (h : Touches fs fs') (h' : Touches fs' fs'') : Touches fs fs'' :=
  ⟨h.shape.trans h'.shape, h.env.trans h'.env, h'.freeClusters.trans h.freeClusters⟩

theorem ask_touches (fs : Fs) : Touches fs fs.ask.2 := ⟨.refl _, ⟨1, fun _ => rfl⟩, rfl⟩

theorem blkWrite_touches (lba n : Nat) (buf : Buf) (fs : Fs) : Touches fs (blkWrite lba n buf fs).2 :=
  ⟨.refl _, ⟨1, fun _ => rfl⟩, rfl⟩

/-- The cache is changed. -/
theorem cache_touches (fs : Fs) (sector : Nat) (dirty : Bool) (cache : Option Buf) :
    Touches fs { fs with vol := { fs.vol with
      cachedFatSector := sector, cachedDirty := dirty, fatCache := cache } } :=
  ⟨by constructor <;> rfl, .refl _, rfl⟩

theorem fat32Flush_touches (fs : Fs) : Touches fs (fat32Flush fs).2 := by
  rw [fat32Flush]
  split
  · exact .refl fs
  · rename_i cache _
    have h1 := blkWrite_touches (fs.vol.fat1Lba + fs.vol.cachedFatSector) 1 cache fs
    have hclean : ∀ {fs' : Fs}, Touches fs fs' → Touches fs fs'.setClean := fun {fs'} h =>
      h.trans (cache_touches fs' fs'.vol.cachedFatSector false fs'.vol.fatCache)
    split
    · exact .refl fs
    · dsimp only
      split
      · exact h1
      · split
        · exact hclean h1
        · have h2 := h1.trans (blkWrite_touches (fs.vol.fat2Lba + fs.vol.cachedFatSector) 1 cache _)
          split
          · exact h2
          · exact hclean h2

theorem ensureCache_touches (fs : Fs) : Touches fs (ensureCache fs).2 := by
  rw [ensureCache]
  split
  · exact .refl fs
  · rw [malloc]
    cases fs.ask.1.ok with
    | true => exact (ask_touches fs).trans (cache_touches _ _ fs.vol.cachedDirty _)
    | false => exact ask_touches fs

theorem flushIfDirty_touches (fs : Fs) : Touches fs (flushIfDirty fs).2 := by
  rw [flushIfDirty]
  split
  · exact fat32Flush_touches fs
  · exact .refl fs

theorem loadSector_touches (s : Nat) (fs : Fs) : Touches fs (loadSector s fs).2 := by
  have hflush := flushIfDirty_touches fs
  rw [loadSector]
  split
  · exact hflush
  · rw [blkRead]
    cases (flushIfDirty fs).2.ask.1.ok with
    | true =>
      exact (hflush.trans (ask_touches _)).trans (cache_touches _ s (flushIfDirty fs).2.vol.cachedDirty _)
    | false => exact hflush.trans (ask_touches _)

theorem fatReadEntry_touches (c : Nat) (fs : Fs) : Touches fs (fatReadEntry c fs).2 := by
  have hcache : Touches fs (cacheForRead (c / entriesPerSector) fs).2 := by
    rw [cacheForRead]
    dsimp only
    split
    · split
      · exact ensureCache_touches fs
      · exact (ensureCache_touches fs).trans (loadSector_touches _ _)
    · exact .refl fs
  rw [fatReadEntry]
  split
  · exact hcache
  · exact hcache

theorem fatWriteEntry_touches (c v : Nat) (fs : Fs) : Touches fs (fatWriteEntry c v fs).2 := by
  have hcache : Touches fs (cacheForWrite (c / entriesPerSector) fs).2 := by
    rw [cacheForWrite]
    split
    · exact ensureCache_touches fs
    · split
      · exact (ensureCache_touches fs).trans (loadSector_touches _ _)
      · exact ensureCache_touches fs
  rw [fatWriteEntry]
  split
  · exact hcache
  · exact hcache.trans (cache_touches _ _ true _)

/-! ## When nothing fails -/

/-- Every request still to come succeeds. -/
def NoErrors (fs : Fs) : Prop := ∀ n, (fs.env n).ok = true

theorem NoErrors.later (h : NoErrors fs) (hl : Later fs.env fs'.env) : NoErrors fs' := by
  obtain ⟨k, hk⟩ := hl
  intro n
  rw [hk]
  exact h (n + k)

theorem Keeps.noErrors (hk : Keeps fs fs') (h : NoErrors fs) : NoErrors fs' := h.later hk.env

theorem Touches.noErrors (ht : Touches fs fs') (h : NoErrors fs) : NoErrors fs' := h.later ht.env

theorem blkWrite_fst (h : NoErrors fs) (s n : Nat) (buf : Buf) : (blkWrite s n buf fs).1 = true := h 0

theorem fat32Flush_fst (h : NoErrors fs) : (fat32Flush fs).1 = true := by
  rw [fat32Flush]
  split
  · rfl
  · rename_i cache _
    split
    · rfl
    · dsimp only
      rw [if_neg (by simp [blkWrite_fst h])]
      split
      · rfl
      · have h' : NoErrors (blkWrite (fs.vol.fat1Lba + fs.vol.cachedFatSector) 1 cache fs).2 :=
          fun n => h (n + 1)
        rw [if_neg (by simp [blkWrite_fst h'])]

theorem ensureCache_fst (h : NoErrors fs) : (ensureCache fs).1 = true := by
  rw [ensureCache]
  split
  · rfl
  · rw [malloc, if_pos (show fs.ask.1.ok = true from h 0)]

/-- A sector gets into the cache. -/
theorem loadSector_fst (h : NoErrors fs) (s : Nat) :
    (loadSector s fs).1 = true ∧ (loadSector s fs).2.vol.fatCache.isSome := by
  have hflush : (flushIfDirty fs).1 = true := by
    rw [flushIfDirty]
    split
    · exact fat32Flush_fst h
    · rfl
  have h' : NoErrors (flushIfDirty fs).2 := (flushIfDirty_touches fs).noErrors h
  rw [loadSector]
  rw [if_neg (by simp [hflush]), blkRead, if_pos (show (flushIfDirty fs).2.ask.1.ok = true from h' 0)]
  exact ⟨rfl, rfl⟩

/-- Reading an entry succeeds, in any state. -/
theorem fatReadEntry_isSome (h : NoErrors fs) (c : Nat) : (fatReadEntry c fs).1.isSome := by
  have hload := loadSector_fst ((ensureCache_touches fs).noErrors h) (c / entriesPerSector)
  have hcache : (cacheForRead (c / entriesPerSector) fs).1 = true ∧
      (cacheForRead (c / entriesPerSector) fs).2.vol.fatCache.isSome := by
    rw [cacheForRead]
    split
    · rw [if_neg (by simp [ensureCache_fst h])]
      exact hload
    · rename_i hnot
      exact ⟨rfl, Option.isSome_iff_ne_none.2 (by simpa using (not_or.1 hnot).1)⟩
  rw [fatReadEntry, if_neg (by simp [hcache.1])]
  simpa using hcache.2

/-- Writing an entry succeeds, in any state. -/
theorem fatWriteEntry_fst (h : NoErrors fs) (c v : Nat) : (fatWriteEntry c v fs).1 = true := by
  have hload := loadSector_fst ((ensureCache_touches fs).noErrors h) (c / entriesPerSector)
  have hcache : (cacheForWrite (c / entriesPerSector) fs).1 = true := by
    rw [cacheForWrite, if_neg (by simp [ensureCache_fst h])]
    split
    · exact hload.1
    · rfl
  rw [fatWriteEntry, if_neg (by simp [hcache])]

theorem fatReadEntry_ok (hc : Consistent fs) (h : NoErrors fs) (hin : InTable fs.vol c) :
    (fatReadEntry c fs).1 = some (low28 (fs.entry c)) :=
  (fatReadEntry_spec hc hin).2.resolve_left (Option.isSome_iff_ne_none.1 (fatReadEntry_isSome h c))

theorem fatWriteEntry_ok (hc : Consistent fs) (h : NoErrors fs) (hin : InTable fs.vol c)
    (v : Nat) : (fatWriteEntry c v fs).1 = true ∧ Stores fs (fatWriteEntry c v fs).2 c v :=
  (fatWriteEntry_spec hc hin v).resolve_left fun hf =>
    Bool.noConfusion (hf.1.symm.trans (fatWriteEntry_fst h c v))

/-! ## After mounting -/

/-- What `fat32_mount` makes of the volume. -/
structure Fresh (vol : Volume) : Prop where
  cache : vol.fatCache = none
  sector : vol.cachedFatSector = 0xFFFFFFFF
  clean : vol.cachedDirty = false
  fat2 : vol.fat2Lba = vol.fat1Lba + vol.sectorsPerFat
  sectorsPerFat : vol.sectorsPerFat < 2 ^ 32

theorem fresh_populate (nSectors : Nat) (buf : Buf) :
    Fresh (populate (fatCacheInvalidate { zeroVolume with nSectors := nSectors }) (bootSector buf)) where
  cache := rfl
  sector := rfl
  clean := rfl
  fat2 := rfl
  sectorsPerFat := get_lt ..

theorem Fresh.markInUse (h : Fresh fs.vol) (buf : Buf) : Fresh (markInUse buf fs).vol := by
  rw [Fat32.markInUse]
  split
  · exact h
  · exact h

theorem Fresh.readFsInfo (h : Fresh fs.vol) (s : Nat) : Fresh (readFsInfo s fs).vol := by
  rw [Fat32.readFsInfo]
  split
  · rw [blkRead]
    cases fs.ask.1.ok with
    | true =>
      show Fresh (fsInfoCounts fs.vol _)
      rw [fsInfoCounts]
      split
      · exact ⟨h.1, h.2, h.3, h.4, h.5⟩
      · exact h
    | false => exact h
  · exact h

theorem fresh_of_mount {nSectors : Nat} (h : fat32Mount nSectors fs = (true, fs')) : Fresh fs'.vol := by
  rw [fat32Mount] at h
  dsimp only at h
  split at h
  · exact Bool.noConfusion (Prod.mk.inj h).1
  · rename_i buf fs1 hread
    have hvol : fs1.vol = fatCacheInvalidate { zeroVolume with nSectors := nSectors } :=
      (congrArg (fun r => r.2.vol) hread).symm
    split at h
    · rw [hvol] at h
      obtain rfl := (Prod.mk.inj h).2
      have hfresh : Fresh (Fs.mk (populate (fatCacheInvalidate { zeroVolume with nSectors := nSectors })
        (bootSector buf)) fs1.disk fs1.env).vol := fresh_populate nSectors buf
      exact (hfresh.markInUse buf).readFsInfo _
    · exact Bool.noConfusion (Prod.mk.inj h).1

/-- There is nothing in the cache of a fresh volume. -/
theorem Fresh.entry (h : Fresh fs.vol) (c : Nat) : fs.entry c = tableEntry fs.disk fs.vol.fat1Lba c :=
  fs.entry_uncached (Or.inl h.cache)

theorem Fresh.consistent (h : Fresh fs.vol) : Consistent fs where
  fat2 := h.fat2
  dirty := fun hd => by rw [h.clean] at hd; exact Bool.noConfusion hd
  empty := fun _ => by rw [h.sector]; exact Nat.le_of_lt_succ h.sectorsPerFat
  synced := fun c _ _ => (h.entry c).symm

/-! ## Every sequence of calls -/

/-- A call of a function on the table. -/
inductive Call
  | read (c : UInt32)
  | write (c v : UInt32)
  | flush

/-- The cluster of the call, if there is one, has an entry in the table. -/
def Call.InTable (vol : Volume) : Call → Prop
  | .read c => Fat32.InTable vol c.toNat
  | .write c _ => Fat32.InTable vol c.toNat
  | .flush => True

/-- A call: the value that was read, or `0`, and `none` for `-1`. -/
def perform (fs : Fs) : Call → Option Nat × Fs
  | .read c => fatReadEntry c.toNat fs
  | .write c v =>
    (if (fatWriteEntry c.toNat v.toNat fs).1 then some 0 else none, (fatWriteEntry c.toNat v.toNat fs).2)
  | .flush => (if (fat32Flush fs).1 then some 0 else none, (fat32Flush fs).2)

/-- A volume and the calls so far, the last one first, and whether they succeeded. -/
structure Session where
  fs : Fs
  log : List (Call × Bool)

def Session.step (s : Session) (call : Call) : Session :=
  ⟨(perform s.fs call).2, (call, (perform s.fs call).1.isSome) :: s.log⟩

/-- What was most recently written to a cluster. -/
def written (c : Nat) : List (Call × Bool) → Option Nat
  | [] => none
  | (.write d v, true) :: log => if d.toNat = c then some v.toNat else written c log
  | (.write _ _, false) :: log => written c log
  | (.read _, _) :: log => written c log
  | (.flush, _) :: log => written c log

/-- The logical table is what was there at mount, `m`, with the low bits that have been written. -/
structure Refines (m : Fs) (s : Session) : Prop extends Frame m s.fs where
  low : ∀ c, InTable m.vol c →
    low28 (s.fs.entry c) = low28 ((written c s.log).getD (tableEntry m.disk m.vol.fat1Lba c))
  high : ∀ c, InTable m.vol c → s.fs.entry c / 2 ^ 28 = tableEntry m.disk m.vol.fat1Lba c / 2 ^ 28

variable {m : Fs} {s : Session}

/-- A call that changed nothing, and wrote nothing. -/
theorem Refines.keeps (h : Refines m s) (hk : Keeps s.fs fs') {log : List (Call × Bool)}
    (hlog : ∀ c, written c log = written c s.log) : Refines m ⟨fs', log⟩ where
  toFrame := h.toFrame.trans hk.toFrame
  low := fun c hc => by
    rw [hk.entry c (h.shape.inTable.2 hc), hlog c]
    exact h.low c hc
  high := fun c hc => by
    rw [hk.entry c (h.shape.inTable.2 hc)]
    exact h.high c hc

theorem Refines.step (h : Refines m s) {call : Call} (hin : call.InTable s.fs.vol) : Refines m (s.step call) := by
  match call with
  | .read c => exact h.keeps (fatReadEntry_spec h.consistent hin).1 fun _ => rfl
  | .flush => exact h.keeps (fat32Flush_keeps h.consistent).1 fun _ => rfl
  | .write c v =>
    rcases fatWriteEntry_spec h.consistent hin v.toNat with ⟨hf, hk⟩ | ⟨hf, hst⟩
    · refine h.keeps hk fun _ => ?_
      rw [perform, hf]
      rfl
    · have hlog : (s.step (.write c v)).log = (.write c v, true) :: s.log := by
        rw [Session.step, perform, hf]
        rfl
      refine ⟨h.toFrame.trans hst.toFrame, fun d hd => ?_, fun d hd => ?_⟩
      · rw [hlog, written]
        refine (congrArg low28 (hst.entry d (h.shape.inTable.2 hd))).trans ?_
        by_cases hdc : c.toNat = d
        · rw [if_pos hdc.symm, if_pos hdc, low28_mergeEntry, Option.getD_some]
        · rw [if_neg fun he => hdc he.symm, if_neg hdc]
          exact h.low d hd
      · refine (congrArg (· / 2 ^ 28) (hst.entry d (h.shape.inTable.2 hd))).trans ?_
        by_cases hdc : d = c.toNat
        · have hlt : s.fs.entry c.toNat < 2 ^ 32 := s.fs.entry_lt _
          rw [if_pos hdc]
          refine (mergeEntry_div _ hlt).trans ?_
          rw [← hdc]
          exact h.high d hd
        · rw [if_neg hdc]
          exact h.high d hd

/-- Nothing is dirty: both copies are the logical table. -/
theorem Synced.of_clean {lba : Nat} (h : Synced fs lba) (hclean : fs.vol.cachedDirty = false)
    (hc : InTable fs.vol c) : tableEntry fs.disk lba c = fs.entry c :=
  h c hc (by simp [hclean])

theorem perform_keeps_of_none (h : Consistent fs) {call : Call} (hin : call.InTable fs.vol)
    (hf : (perform fs call).1 = none) : Keeps fs (perform fs call).2 := by
  match call with
  | .read c => exact (fatReadEntry_spec h hin).1
  | .flush => exact (fat32Flush_keeps h).1
  | .write c v =>
    rcases fatWriteEntry_spec h hin v.toNat with ⟨-, hk⟩ | ⟨hok, -⟩
    · exact hk
    · rw [perform, if_pos hok] at hf
      exact absurd hf (Option.some_ne_none 0)

/-- **The cache refines the table.**  After every sequence of calls on clusters that the table has an
entry for: the logical table has the low 28 bits most recently written, or those on disk at mount, and
the high four bits that were on disk at mount; a read returns its low bits, and does return if no
request fails; a call that returns `-1` leaves it as it is; and a flush that succeeds leaves it in the
first copy on disk, and in the second if there is one and the two agreed at mount. -/
theorem fatCache_refines {nSectors : Nat} {fs₀ : Fs} (hm : fat32Mount nSectors fs₀ = (true, m)) {calls : List Call}
    (hcalls : Each Session.step (fun s call => call.InTable s.fs.vol) ⟨m, []⟩ calls)
    (hs : calls.foldl Session.step ⟨m, []⟩ = s) :
    (∀ c, InTable m.vol c → low28 (s.fs.entry c) = low28 ((written c s.log).getD (tableEntry m.disk m.vol.fat1Lba c)) ∧
      s.fs.entry c / 2 ^ 28 = tableEntry m.disk m.vol.fat1Lba c / 2 ^ 28 ∧
      (∀ v, (fatReadEntry c s.fs).1 = some v → v = low28 (s.fs.entry c)) ∧
      (NoErrors s.fs → (fatReadEntry c s.fs).1 ≠ none)) ∧
    (∀ call, call.InTable m.vol → (perform s.fs call).1 = none →
      ∀ c, InTable m.vol c → (perform s.fs call).2.entry c = s.fs.entry c) ∧
    ((fat32Flush s.fs).1 = true → ∀ c, InTable m.vol c →
      tableEntry (fat32Flush s.fs).2.disk m.vol.fat1Lba c = s.fs.entry c ∧
      (2 ≤ m.vol.numFats → (∀ d, InTable m.vol d →
          tableEntry m.disk m.vol.fat2Lba d = tableEntry m.disk m.vol.fat1Lba d) →
        tableEntry (fat32Flush s.fs).2.disk m.vol.fat2Lba c = s.fs.entry c)) := by
  have hfresh := fresh_of_mount hm
  have hstart : Refines m ⟨m, []⟩ :=
    ⟨(Keeps.refl hfresh.consistent).toFrame, fun c _ => congrArg low28 (hfresh.entry c),
      fun c _ => congrArg (· / 2 ^ 28) (hfresh.entry c)⟩
  have h : Refines m s := hs ▸ Each.invariant (Refines m) (fun s call h hin => h.step hin) _ _ hstart hcalls
  refine ⟨fun c hc => ?_, fun call hin hf c hc => ?_, fun hok c hc => ?_⟩
  · have hc' := h.shape.inTable.2 hc
    refine ⟨h.low c hc, h.high c hc, fun v hv => ?_, fun he => ?_⟩
    · rcases (fatReadEntry_spec h.consistent hc').2 with hn | hn
      · rw [hn] at hv
        exact absurd hv.symm (Option.some_ne_none v)
      · rw [hn] at hv
        exact (Option.some.inj hv).symm
    · rw [fatReadEntry_ok h.consistent he hc']
      exact Option.some_ne_none _
  · have hin' : call.InTable s.fs.vol := by
      match call with
      | .read d => exact h.shape.inTable.2 hin
      | .write d v => exact h.shape.inTable.2 hin
      | .flush => trivial
    exact (perform_keeps_of_none h.consistent hin' hf).entry c (h.shape.inTable.2 hc)
  · obtain ⟨hk, hclean⟩ := fat32Flush_keeps h.consistent
    have hc' : InTable (fat32Flush s.fs).2.vol c := (h.shape.trans hk.shape).inTable.2 hc
    rw [← hk.entry c (h.shape.inTable.2 hc)]
    constructor
    · rw [← (h.shape.trans hk.shape).fat1Lba]
      exact hk.consistent.synced.of_clean (hclean hok) hc'
    · intro hn hagree
      have hsync : Synced m m.vol.fat2Lba := fun d hd _ => (hagree d hd).trans (hfresh.entry d).symm
      have hsync' := h.second hn hsync
      rw [← h.shape.fat2Lba] at hsync' ⊢
      exact (hk.second (by rwa [h.shape.numFats]) hsync').of_clean (hclean hok) hc'

/-- A disk with a boot sector: clusters of one sector, one reserved sector, two copies of a table of one
sector, the root directory in cluster 2. -/
def tinyDisk : Buf :=
  put (put (put (put (put (put (put (fun _ => 0) 11 2 512) 13 1 1) 14 2 1) 16 1 2) 36 4 1) 44 4 2)
    510 2 0xAA55

/-- The disk on a device that never fails. -/
def tinyFs : Fs := ⟨zeroVolume, tinyDisk, fun _ => ⟨true, fun _ => 0⟩⟩

theorem fatCache_refines_tiny : ∃ m s, fat32Mount 1000 tinyFs = (true, m) ∧
      [Call.write 5 7, Call.flush].foldl Session.step ⟨m, []⟩ = s ∧ low28 (s.fs.entry 5) = 7 := by
  have hm : fat32Mount 1000 tinyFs = (true, (fat32Mount 1000 tinyFs).2) :=
    Prod.ext (by decide) rfl
  have hin : InTable (fat32Mount 1000 tinyFs).2.vol 5 := by
    show _ < _
    decide
  have hcalls : Each Session.step (fun s call => call.InTable s.fs.vol)
      ⟨(fat32Mount 1000 tinyFs).2, []⟩ [.write 5 7, .flush] := ⟨hin, trivial, trivial⟩
  have hlow := ((fatCache_refines hm hcalls rfl).1 5 hin).1
  refine ⟨_, _, hm, rfl, hlow.trans ?_⟩
  decide

/-- **Beyond the table.**  Nothing relates the size of the table to the number of clusters: here
cluster 128 is one of the volume's, but its entry is where the second copy begins. -/
theorem flush_beyond_table : ∃ m s, fat32Mount 1000 tinyFs = (true, m) ∧ m.vol.numFats = 2 ∧ 128 < m.vol.totalClusters ∧
      tableEntry m.disk m.vol.fat2Lba 0 = tableEntry m.disk m.vol.fat1Lba 0 ∧
      [Call.write 128 5].foldl Session.step ⟨m, []⟩ = s ∧ (fat32Flush s.fs).1 = true ∧
      tableEntry (fat32Flush s.fs).2.disk m.vol.fat2Lba 0 ≠ s.fs.entry 0 := by
  refine ⟨_, _, Prod.ext (by decide) rfl, ?_, ?_, ?_, rfl, ?_, ?_⟩ <;> decide

end WuBuOS.Fat32
