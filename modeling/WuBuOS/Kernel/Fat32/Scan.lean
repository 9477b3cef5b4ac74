import WuBuOS.Kernel.Fat32.CreateFails

/-!
# Scanning a directory need not end

`fat32_dir_read`, `fat32_find` and the walk of `fat32_open` to the last cluster of a file follow the links
in the table and keep no account of where they have been.  What they see of the table is what is on the
disk, as long as nothing has been written (`AtRest`), so whether they end is a matter of the links: a
scan ends if they lead to a number that is none of a cluster, or to a cluster in which the end of the
directory is marked, and if they lead on for ever there is a scan that does not end.

There is a second way not to come back.  The characters of a long-name slot go to their places in an array on the
stack, by the ordinal of the slot, and those of ordinal zero go in front of it (`Strays`).  What becomes of a scan
that makes such a store is not said, so here it has no result.

* The two scans of a directory are one loop (`scanLoop`), with what is done with a cluster as a parameter.
* `findInside_eq`: a search that makes no such store is `fat32Find`.
* `scans_end_iff`: when the scans end, and make no such store.
-/

namespace WuBuOS.Fat32

open Bytes
open Function (iterate_succ_apply)

universe u

variable {σ ρ : Type} {fs fs' : Fs} {buf : Buf} {name : List UInt8} {c dir i k n : Nat}

/-! ## Reading a directory -/

/-- What is done with a slot, or with some slots: the scan is over, with a result, or goes on, or there is a store in
front of `lfn`. -/
inductive Step (ρ σ : Type)
  | done (r : ρ)
  | more (s : σ)
  | wild

/-- **A long-name slot of ordinal zero**, whose first character goes 13 places in front of `lfn`.  It goes nowhere if
it is `0x0000` or `0xFFFF`, and neither do those behind it. -/
def Strays (buf : Buf) (i : Nat) : Prop :=
  slotField buf i 0 1 ≠ 0x00 ∧ slotField buf i 11 1 = attrLfn ∧ slotField buf i 0 1 &&& 0x3F = 0 ∧
    slotField buf i (lfnCharPos 0) 2 ≠ 0 ∧ slotField buf i (lfnCharPos 0) 2 ≠ 0xFFFF

instance (buf : Buf) : DecidablePred (Strays buf) := fun _ => inferInstanceAs (Decidable (_ ∧ _))

/-- A loop over the slots of a cluster, with so many still to be looked at. -/
def slotLoop (slot : Nat → σ → Step ρ σ) : Nat → Nat → σ → Step ρ σ
  | 0, _, s => .more s
  | n + 1, i, s =>
    match slot i s with
    | .more s => slotLoop slot n (i + 1) s
    | .done r => .done r
    | .wild => .wild

/-- A loop over the clusters of a directory, with `scan` for what is done with the slots of one. -/
def scanLoop (scan : Nat → Nat → Buf → σ → Step ρ σ) (failed ended : σ → ρ) : Nat → Nat → σ → M ρ
  | 0, _, _ => stuck
  | fuel + 1, cluster, s => do
    if IsCluster cluster then
      match ← lift (readCluster cluster) with
      | none => return failed s
      | some buf =>
        match scan (entriesPerCluster (← get).vol) cluster buf s with
        | .done r => return r
        | .wild => stuck
        | .more s =>
          let next ← lift (fat32NextCluster cluster)
          scanLoop scan failed ended fuel next s
    else return ended s

/-- The state of `fat32_dir_read`: the long name read so far, the count of entries, and what the callback has
made of its context. -/
structure Listing (σ : Type) where
  lfn : Lfn
  count : Nat
  ctx : σ

/-- The callback of `fat32_dir_read`, if there is one: whether to go on, and its context afterwards. -/
abbrev DirCallback (σ : Type) := Option (FileInfo → σ → Bool × σ)

/-- What `fat32_dir_read` returns, and the context; `none` for `-1`. -/
abbrev Listed (σ : Type) := Option Nat × σ

/-- One slot of the loop of `fat32_dir_read`. -/
def dirReadSlot (cb : DirCallback σ) (buf : Buf) (cluster i : Nat) (l : Listing σ) : Step (Listed σ) (Listing σ) :=
  if slotField buf i 0 1 = 0x00 then .done (some l.count, l.ctx)
  else if slotField buf i 0 1 = 0xE5 then .more { l with lfn := noLfn }
  else if Strays buf i then .wild
  else if slotField buf i 11 1 = attrLfn then .more { l with lfn := readLfn buf i l.lfn }
  else if slotField buf i 11 1 &&& attrVolumeId ≠ 0 then .more { l with lfn := noLfn }
  else
    match cb with
    | none => .more ⟨noLfn, l.count + 1, l.ctx⟩
    | some cb =>
      let r := cb (slotInfo buf cluster i l.lfn) l.ctx
      if r.1 then .more ⟨noLfn, l.count + 1, r.2⟩ else .done (some (l.count + 1), r.2)

/-- What `fat32_dir_read` does with a cluster. -/
def dirReadScan (cb : DirCallback σ) (slots cluster : Nat) (buf : Buf) (l : Listing σ) :
    Step (Listed σ) (Listing σ) :=
  slotLoop (dirReadSlot cb buf cluster) slots 0 l

/-- The loop of `fat32_dir_read`. -/
def dirReadLoop (cb : DirCallback σ) : Nat → Nat → Listing σ → M (Listed σ) :=
  scanLoop (dirReadScan cb) (fun l => (none, l.ctx)) fun l => (some l.count, l.ctx)

def fat32DirRead (dirCluster : Nat) (cb : DirCallback σ) (ctx : σ) : M (Listed σ) := do
  if (← get).vol.mounted = false then return (none, ctx)
  else
    let cluster := dirOrRoot (← get).vol dirCluster
    match ← lift malloc with
    | none => return (none, ctx)
    | some _ => dirReadLoop cb maxSteps cluster ⟨noLfn, 0, ctx⟩

/-- What the search comes to, as a step. -/
def Scan.step : Scan → Step (Option FileInfo) Lfn
  | .stop => .done none
  | .hit info => .done (some info)
  | .more lfn => .more lfn

/-- One slot of the loop of `fat32_find`. -/
def findInsideSlot (buf : Buf) (cluster : Nat) (name : List UInt8) (i : Nat) (lfn : Lfn) : Step (Option FileInfo) Lfn :=
  if Strays buf i then .wild else (findSlot buf cluster name i lfn).step

/-- What `fat32_find` does with a cluster. -/
def findScan (name : List UInt8) (slots cluster : Nat) (buf : Buf) (lfn : Lfn) :
    Step (Option FileInfo) Lfn :=
  slotLoop (findInsideSlot buf cluster name) slots 0 lfn

/-- The loop of `fat32_find`. -/
def findInsideLoop (name : List UInt8) : Nat → Nat → Lfn → M (Option FileInfo) :=
  scanLoop (findScan name) (fun _ => none) fun _ => none

/-- `fat32_find`, without a result if there is a store in front of `lfn`. -/
def findInside (dirCluster : Nat) (name : List UInt8) : M (Option FileInfo) := do
  let cluster := dirOrRoot (← get).vol dirCluster
  match ← lift malloc with
  | none => return none
  | some _ => findInsideLoop name maxSteps cluster noLfn

/-- A search of slots that makes no such store. -/
theorem findScan_eq (name : List UInt8) (slots cluster : Nat) (buf : Buf) (lfn : Lfn) :
    findScan name slots cluster buf lfn = .wild ∨
      findScan name slots cluster buf lfn = (findSlots buf cluster name slots 0 lfn).step := by
  have h : ∀ n i lfn, slotLoop (findInsideSlot buf cluster name) n i lfn = .wild ∨
      slotLoop (findInsideSlot buf cluster name) n i lfn = (findSlots buf cluster name n i lfn).step := by
    intro n
    induction n with
    | zero => exact fun i lfn => Or.inr rfl
    | succ n ih =>
      intro i lfn
      rw [findSlots, slotLoop, findInsideSlot]
      by_cases hs : Strays buf i
      · rw [if_pos hs]
        exact Or.inl rfl
      · rw [if_neg hs]
        cases findSlot buf cluster name i lfn with
        | stop | hit => exact Or.inr rfl
        | more lfn => exact ih (i + 1) lfn
  exact h slots 0 lfn

theorem findInsideLoop_eq {fuel : Nat} {lfn : Lfn} {r : Option FileInfo × Fs}
    (h : findInsideLoop name fuel c lfn fs = some r) : findLoop name fuel c lfn fs = some r := by
  induction fuel generalizing c lfn fs with
  | zero => cases h
  | succ fuel ih =>
    rw [findInsideLoop, scanLoop] at h
    rw [findLoop]
    split at h
    · rename_i hc
      rw [if_pos hc]
      obtain ⟨buf, fs1, hread, h⟩ := bind_inv h
      rw [bind_run hread]
      cases buf with
      | none => exact h
      | some buf =>
        dsimp only at h ⊢
        rw [bind_run (get_run _)] at h ⊢
        rcases findScan_eq name (entriesPerCluster fs1.vol) c buf lfn with hw | hw
        · rw [hw] at h
          cases h
        · rw [hw] at h
          cases hslots : findSlots buf c name (entriesPerCluster fs1.vol) 0 lfn with
          | stop | hit =>
            rw [hslots] at h
            exact h
          | more lfn =>
            rw [hslots] at h
            obtain ⟨next, fs2, hnext, h⟩ := bind_inv h
            dsimp only
            rw [bind_run hnext]
            exact ih h
    · rename_i hc
      rw [if_neg hc]
      exact h

/-- **A search that makes no such store** is `fat32_find`. -/
theorem findInside_eq {r : Option FileInfo × Fs} (h : findInside dir name fs = some r) :
    fat32Find dir name fs = some r := by
  rw [findInside, bind_run (get_run _)] at h
  rw [fat32Find, bind_run (get_run _)]
  obtain ⟨m, fs1, hm, h⟩ := bind_inv h
  rw [bind_run hm]
  cases m with
  | none => exact h
  | some _ => exact findInsideLoop_eq h

/-! ## What is on the disk -/

/-- What a link in the table leads to, by what is on the disk. -/
def Fs.follow (fs : Fs) (c : Nat) : Nat :=
  if c < 2 then 0
  else if clusterEoc ≤ low28 (tableEntry fs.disk fs.vol.fat1Lba c) then 0
  else low28 (tableEntry fs.disk fs.vol.fat1Lba c)

/-- **Nothing is to be written**: what the cache holds is on the disk. -/
structure AtRest (fs : Fs) : Prop where
  clean : fs.vol.cachedDirty = false
  empty : fs.vol.fatCache = none → 2 ^ 25 ≤ fs.vol.cachedFatSector
  cached : ∀ cache, fs.vol.fatCache = some cache → ∀ c < 2 ^ 32, c / entriesPerSector = fs.vol.cachedFatSector →
    entryAt cache (c % entriesPerSector) = tableEntry fs.disk fs.vol.fat1Lba c

/-- It is so after mounting. -/
theorem atRest_of_mount {nSectors : Nat} (h : fat32Mount nSectors fs = (true, fs')) : AtRest fs' := by
  have hfresh := fresh_of_mount h
  refine ⟨hfresh.clean, fun _ => by rw [hfresh.sector]; decide, fun cache hcache => ?_⟩
  rw [hfresh.cache] at hcache
  cases hcache

/-- What a step does that reads: the disk and the volume stay as they are, and at rest. -/
structure Rests (fs fs' : Fs) : Prop where
  rest : AtRest fs'
  disk : fs'.disk = fs.disk
  touches : Touches fs fs'

theorem Rests.trans {fs'' : Fs} (h : Rests fs fs') (h' : Rests fs' fs'') : Rests fs fs'' :=
  ⟨h'.rest, h'.disk.trans h.disk, h.touches.trans h'.touches⟩

theorem Rests.follow (h : Rests fs fs') : fs'.follow = fs.follow := by
  funext c
  rw [Fs.follow, Fs.follow, h.disk, h.touches.shape.fat1Lba]

theorem AtRest.ask (h : AtRest fs) : Rests fs fs.ask.2 :=
  ⟨⟨h.clean, h.empty, h.cached⟩, rfl, ask_touches fs⟩

/-- A sector of the table is read into the cache. -/
theorem AtRest.loadSector (h : AtRest fs) (s : Nat) : AtRest (loadSector s fs).2 ∧ (loadSector s fs).2.disk = fs.disk ∧
      ((loadSector s fs).1 = true → (loadSector s fs).2.vol.cachedFatSector = s) := by
  have hflush : flushIfDirty fs = (true, fs) := by
    rw [flushIfDirty, h.clean]
    rfl
  rw [Fat32.loadSector, hflush]
  dsimp only
  rw [if_neg (by decide), blkRead]
  cases fs.ask.1.ok with
  | false => exact ⟨⟨h.clean, h.empty, h.cached⟩, rfl, fun hf => absurd hf Bool.false_ne_true⟩
  | true =>
    refine ⟨⟨h.clean, fun hn => absurd hn (Option.some_ne_none _), fun cache hcache c _ hcs => ?_⟩, rfl, fun _ => rfl⟩
    cases hcache
    rw [← show c / entriesPerSector = s from hcs]
    exact entryAt_sectors ..

/-- A fresh cache is that of no sector. -/
theorem AtRest.ensureCache (h : AtRest fs) : AtRest (ensureCache fs).2 ∧ (ensureCache fs).2.disk = fs.disk := by
  rw [Fat32.ensureCache]
  split
  · exact ⟨h, rfl⟩
  · rename_i hs
    have hn : fs.vol.fatCache = none := by simpa using hs
    rw [malloc]
    cases fs.ask.1.ok with
    | false => exact ⟨⟨h.clean, h.empty, h.cached⟩, rfl⟩
    | true =>
      refine ⟨⟨h.clean, fun hn => absurd hn (Option.some_ne_none _), fun cache _ c hc hcs => ?_⟩, rfl⟩
      have hbig := h.empty hn
      rw [← show c / entriesPerSector = fs.vol.cachedFatSector from hcs, entriesPerSector, sectorSize] at hbig
      omega

/-- **An entry that is read** is that on the disk. -/
theorem AtRest.read (h : AtRest fs) (hc : c < 2 ^ 32) : Rests fs (fatReadEntry c fs).2 ∧ ((fatReadEntry c fs).1 = none ∨
      (fatReadEntry c fs).1 = some (low28 (tableEntry fs.disk fs.vol.fat1Lba c))) := by
  have htouches := fatReadEntry_touches c fs
  have hcache : AtRest (cacheForRead (c / entriesPerSector) fs).2 ∧
      (cacheForRead (c / entriesPerSector) fs).2.disk = fs.disk ∧
      ((cacheForRead (c / entriesPerSector) fs).1 = true →
        (cacheForRead (c / entriesPerSector) fs).2.vol.cachedFatSector = c / entriesPerSector) := by
    obtain ⟨h1, hd1⟩ := h.ensureCache
    obtain ⟨h2, hd2, hs2⟩ := h1.loadSector (c / entriesPerSector)
    rw [cacheForRead]
    split
    · dsimp only
      split
      · exact ⟨h1, hd1, fun hf => absurd hf Bool.false_ne_true⟩
      · exact ⟨h2, hd2.trans hd1, hs2⟩
    · rename_i hnot
      exact ⟨h, rfl, fun _ => (not_not.1 (not_or.1 hnot).2).symm⟩
  rw [fatReadEntry] at htouches ⊢
  split at htouches
  · rename_i hfail
    rw [if_pos hfail]
    exact ⟨⟨hcache.1, hcache.2.1, htouches⟩, Or.inl rfl⟩
  · rename_i hok
    rw [if_neg hok]
    refine ⟨⟨hcache.1, hcache.2.1, htouches⟩, ?_⟩
    have hfat := htouches.shape.fat1Lba
    have hsector := hcache.2.2 (by simpa using hok)
    cases hsome : (cacheForRead (c / entriesPerSector) fs).2.vol.fatCache with
    | none => exact Or.inl rfl
    | some cache =>
      refine Or.inr ?_
      rw [Option.map_some, hcache.1.cached cache hsome c hc hsector.symm, hcache.2.1, hfat]

theorem AtRest.next (h : AtRest fs) (hc : c < 2 ^ 32) : Rests fs (fat32NextCluster c fs).2 ∧
      ((fat32NextCluster c fs).1 = 0 ∨ (fat32NextCluster c fs).1 = fs.follow c) ∧
      (NoErrors fs → (fat32NextCluster c fs).1 = fs.follow c) := by
  rw [fat32NextCluster, Fs.follow]
  split
  · exact ⟨⟨h, rfl, .refl fs⟩, Or.inl rfl, fun _ => rfl⟩
  · obtain ⟨hr, ho⟩ := h.read hc
    have hok := fun he : NoErrors fs => fatReadEntry_isSome he c
    generalize fatReadEntry c fs = r at hr ho hok
    obtain ⟨o, fs1⟩ := r
    rcases ho with rfl | rfl
    · exact ⟨hr, Or.inl rfl, fun he => absurd (hok he) Bool.false_ne_true⟩
    · exact ⟨hr, Or.inr rfl, fun _ => rfl⟩

theorem Rests.data (h : Rests fs fs') : fs'.data = fs.data := by
  funext c
  rw [Fs.data, Fs.data, h.disk, h.touches.shape.clusterToLba, h.touches.shape.sectorsPerCluster]

theorem follow_lt (fs : Fs) (c : Nat) : fs.follow c < clusterEoc := by
  rw [Fs.follow]
  split
  · decide
  · split
    · decide
    · exact Nat.lt_of_not_le ‹_›

/-! ## Where a scan ends -/

/-- The end of the directory is marked in the cluster. -/
def Marked (buf : Buf) (slots : Nat) : Prop := ∃ i < slots, slotField buf i 0 1 = 0x00

/-- A scan that comes to the number ends there. -/
def Fs.EndsAt (fs : Fs) (c : Nat) : Prop := ¬IsCluster c ∨ Marked (fs.data c) (entriesPerCluster fs.vol)

/-- No slot in front of the end of the directory strays. -/
def Tame (buf : Buf) (slots : Nat) : Prop := ∀ i < slots, (∀ j < i, slotField buf j 0 1 ≠ 0x00) → ¬Strays buf i

/-- A scan that comes to the number makes no store in front of `lfn` there. -/
def Fs.TameAt (fs : Fs) (c : Nat) : Prop := IsCluster c → Tame (fs.data c) (entriesPerCluster fs.vol)

/-- **The links lead to an end**, and no slot strays in front of it. -/
def Fs.Ends (fs : Fs) (c : Nat) : Prop := ∃ k, fs.EndsAt (fs.follow^[k] c) ∧ ∀ j ≤ k, fs.TameAt (fs.follow^[j] c)

theorem Rests.endsAt (h : Rests fs fs') : fs'.EndsAt c ↔ fs.EndsAt c := by
  rw [Fs.EndsAt, Fs.EndsAt, h.data, h.touches.shape.entriesPerCluster]

theorem Rests.tameAt (h : Rests fs fs') : fs'.TameAt c ↔ fs.TameAt c := by
  rw [Fs.TameAt, Fs.TameAt, h.data, h.touches.shape.entriesPerCluster]

theorem Rests.ends (h : Rests fs fs') : fs'.Ends c ↔ fs.Ends c := by
  simp only [Fs.Ends, h.follow, h.endsAt, h.tameAt]

/-- What the links lead to from the next number on. -/
theorem Fs.Ends.cons (hc : fs.TameAt c) (h : fs.Ends (fs.follow c)) : fs.Ends c := by
  obtain ⟨k, hk, htame⟩ := h
  refine ⟨k + 1, hk, fun j hj => ?_⟩
  obtain _ | j := j
  · exact hc
  · exact htame j (Nat.le_of_succ_le_succ hj)

variable {scan : Nat → Nat → Buf → σ → Step ρ σ} {failed ended : σ → ρ} {s : σ}

/-- A cluster that is read is that on the disk. -/
theorem AtRest.readCluster (h : AtRest fs) (hc : 2 ≤ c) :
    Rests fs fs.ask.2 ∧ (readCluster c fs = (none, fs.ask.2) ∨ readCluster c fs = (some (fs.data c), fs.ask.2)) ∧
      (NoErrors fs → readCluster c fs = (some (fs.data c), fs.ask.2)) := by
  refine ⟨h.ask, ?_⟩
  rw [Fat32.readCluster, blkRead, Fs.data, if_pos hc]
  cases hok : fs.ask.1.ok with
  | false => exact ⟨Or.inl rfl, fun he => absurd (hok.symm.trans (he 0)) Bool.false_ne_true⟩
  | true => exact ⟨Or.inr rfl, fun _ => rfl⟩

/-- The walk goes on from the next number, or from `0`. -/
theorem ends_iterate_next {fs2 : Fs} (hr : Rests fs fs2) (hx : n = 0 ∨ n = fs.follow c)
    (hk : fs.EndsAt (fs.follow^[k + 1] c)) (htame : ∀ j ≤ k + 1, fs.TameAt (fs.follow^[j] c)) :
    ∃ k' ≤ k, fs2.EndsAt (fs2.follow^[k'] n) ∧ ∀ j ≤ k', fs2.TameAt (fs2.follow^[j] n) := by
  rcases hx with rfl | rfl
  · have hzero : ¬IsCluster 0 := fun hz => absurd hz.1 (by decide)
    refine ⟨0, k.zero_le, Or.inl hzero, fun j hj hc => ?_⟩
    obtain rfl := Nat.le_zero.1 hj
    exact absurd hc hzero
  · refine ⟨k, le_rfl, ?_, fun j hj => ?_⟩
    · rw [iterate_succ_apply] at hk
      rwa [hr.follow, hr.endsAt]
    · have := htame (j + 1) (Nat.succ_le_succ hj)
      rw [iterate_succ_apply] at this
      rwa [hr.follow, hr.tameAt]

/-- **A scan ends** when it comes to an end, or earlier, if no slot strays. -/
theorem scanLoop_ends (htamed : ∀ slots c buf s, Tame buf slots → scan slots c buf s ≠ .wild)
    (hscan : ∀ slots c buf s, Marked buf slots → ∀ s', scan slots c buf s ≠ .more s')
    (h : AtRest fs) (hk : fs.EndsAt (fs.follow^[k] c)) (htame : ∀ j ≤ k, fs.TameAt (fs.follow^[j] c)) {fuel : Nat}
    (hfuel : k + 2 ≤ fuel) : scanLoop scan failed ended fuel c s fs ≠ none := by
  induction fuel generalizing fs c s k with
  | zero => omega
  | succ fuel ih =>
    rw [scanLoop]
    split
    · rename_i hc
      obtain ⟨hr1, hread, -⟩ := h.readCluster hc.1
      rcases hread with hread | hread
      · rw [bind_run (lift_run hread)]
        exact Option.some_ne_none _
      · rw [bind_run (lift_run hread)]
        dsimp only
        rw [bind_run (get_run _)]
        cases hs : scan (entriesPerCluster fs.ask.2.vol) c (fs.data c) s with
        | done r => exact Option.some_ne_none _
        | wild => exact absurd hs (htamed _ _ _ _ (htame 0 k.zero_le hc))
        | more s' =>
          obtain ⟨hr2, hnext, -⟩ := hr1.rest.next (c := c) (lt_trans hc.2 (by decide))
          rw [hr1.follow] at hnext
          obtain _ | k := k
          · exact absurd hs (hscan _ _ _ _ (hk.resolve_left (not_not_intro hc)) s')
          · obtain ⟨k', hk', hend, htame'⟩ := ends_iterate_next (hr1.trans hr2) hnext hk htame
            exact ih hr2.rest hend htame' (by omega)
    · exact Option.some_ne_none _

/-- **A scan that finds nothing** goes on for as long as the links lead on, unless a slot strays. -/
theorem scanLoop_stuck (hwild : ∀ slots c buf s, ¬Tame buf slots → scan slots c buf s = .wild)
    (hscan : ∀ slots c buf s, ¬Marked buf slots → ∀ r, scan slots c buf s ≠ .done r)
    (h : AtRest fs) (he : NoErrors fs) (hk : ¬fs.Ends c) (fuel : Nat) :
    scanLoop scan failed ended fuel c s fs = none := by
  induction fuel generalizing fs c s with
  | zero => rfl
  | succ fuel ih =>
    have hc : IsCluster c := by
      by_contra hc
      refine hk ⟨0, Or.inl hc, fun j hj hc' => ?_⟩
      obtain rfl := Nat.le_zero.1 hj
      exact absurd hc' hc
    obtain ⟨hr1, -, hread⟩ := h.readCluster hc.1
    rw [scanLoop, if_pos hc, bind_run (lift_run (hread he))]
    dsimp only
    rw [bind_run (get_run _)]
    have hslots : entriesPerCluster fs.ask.2.vol = entriesPerCluster fs.vol := hr1.touches.shape.entriesPerCluster
    cases hs : scan (entriesPerCluster fs.ask.2.vol) c (fs.data c) s with
    | wild => rfl
    | done r =>
      have htame : Tame (fs.data c) (entriesPerCluster fs.vol) := by
        by_contra hno
        rw [hslots, hwild _ c _ s hno] at hs
        cases hs
      have hm : Marked (fs.data c) (entriesPerCluster fs.vol) := by
        by_contra hno
        rw [hslots] at hs
        exact hscan _ c _ s hno r hs
      refine absurd ⟨0, Or.inr hm, fun j hj _ => ?_⟩ hk
      obtain rfl := Nat.le_zero.1 hj
      exact htame
    | more s' =>
      have htame : fs.TameAt c := by
        intro _
        by_contra hno
        rw [hslots, hwild _ c _ s hno] at hs
        cases hs
      have he1 := hr1.touches.noErrors he
      obtain ⟨hr2, -, hnext⟩ := hr1.rest.next (c := c) (lt_trans hc.2 (by decide))
      have hstep : fat32NextCluster c fs.ask.2 = (fs.follow c, (fat32NextCluster c fs.ask.2).2) :=
        Prod.ext (by rw [hnext he1, hr1.follow]) rfl
      dsimp only
      rw [bind_run (lift_run hstep)]
      refine ih hr2.rest (hr2.touches.noErrors he1) fun hends => hk (.cons htame ?_)
      rwa [(hr1.trans hr2).ends] at hends

/-- An end is come to within as many steps as there are cluster numbers. -/
theorem Fs.Ends.within (h : fs.Ends c) : ∃ k, k + 2 ≤ maxSteps ∧ fs.EndsAt (fs.follow^[k] c) ∧
    ∀ j ≤ k, fs.TameAt (fs.follow^[j] c) := by
  classical
  obtain ⟨k, hk, htame⟩ := h
  have hfew : ∀ x, ¬fs.EndsAt x → x ∈ Finset.Ico 2 clusterEoc := by
    intro x hx
    have hc : IsCluster x := not_not.1 (not_or.1 hx).1
    exact Finset.mem_Ico.2 hc
  obtain ⟨k', hk', hend⟩ := Trail.exists_iterate_le_card hfew ⟨k, not_not_intro hk⟩
  rw [Nat.card_Ico] at hk'
  have hsmall : k' + 2 ≤ maxSteps := le_trans (Nat.add_le_add_right hk' 2) (by decide)
  rcases Nat.le_total k k' with hle | hle
  · exact ⟨k, by omega, hk, htame⟩
  · exact ⟨k', hsmall, not_not.1 hend, fun j hj => htame j (hj.trans hle)⟩

/-! ## The slots of a cluster -/

variable {slot : Nat → σ → Step ρ σ}

/-- **What a loop over slots comes to**: it goes on if every slot does, ends at the first one that ends it, and
strays at the first one that strays. -/
structure Slots (buf : Buf) (slot : Nat → σ → Step ρ σ) : Prop where
  mark : ∀ i s, slotField buf i 0 1 = 0x00 → ∃ r, slot i s = .done r
  wild : ∀ i s, slot i s = .wild ↔ Strays buf i

/-- A loop over slots goes through all of them, or comes to what the first one comes to that does not go on. -/
theorem slotLoop_cases (slot : Nat → σ → Step ρ σ) (n i : Nat) (s : σ) :
    ∃ k s', i ≤ k ∧ (∀ j, i ≤ j → j < k → ∃ s s', slot j s = .more s') ∧
      (k = i + n ∧ slotLoop slot n i s = .more s' ∨
        k < i + n ∧ slotLoop slot n i s = slot k s' ∧ ∀ s'', slot k s' ≠ .more s'') := by
  induction n generalizing i s with
  | zero => exact ⟨i, s, le_rfl, fun j hj hlt => absurd hlt (Nat.not_lt.2 hj), Or.inl ⟨rfl, rfl⟩⟩
  | succ n ih =>
    by_cases hmore : ∃ s1, slot i s = .more s1
    · obtain ⟨s1, hs⟩ := hmore
      obtain ⟨k, s', hik, hall, h⟩ := ih (i + 1) s1
      rw [slotLoop, hs, ← Nat.succ_add_eq_add_succ]
      refine ⟨k, s', Nat.le_of_succ_le hik, fun j hj hlt => ?_, h⟩
      rcases Nat.eq_or_lt_of_le hj with rfl | hj
      · exact ⟨s, s1, hs⟩
      · exact hall j hj hlt
    · have hne := not_exists.1 hmore
      refine ⟨i, s, le_rfl, fun j hj hlt => absurd hlt (Nat.not_lt.2 hj), Or.inr ⟨by omega, ?_, hne⟩⟩
      rw [slotLoop]
      split
      · exact absurd ‹_› (hne _)
      · exact Eq.symm ‹_›
      · exact Eq.symm ‹_›

theorem Slots.not_marked (h : Slots buf slot) (hs : ∃ s s', slot i s = .more s') : slotField buf i 0 1 ≠ 0x00 := by
  intro h0
  obtain ⟨s, s', hs⟩ := hs
  obtain ⟨r, hr⟩ := h.mark i s h0
  cases hr.symm.trans hs

theorem Slots.not_more (h : Slots buf slot) (hm : Marked buf n) {s s' : σ} : slotLoop slot n 0 s ≠ .more s' := by
  obtain ⟨i, hi, h0⟩ := hm
  obtain ⟨k, s'', -, hall, ⟨rfl, -⟩ | ⟨-, heq, hne⟩⟩ := slotLoop_cases slot n 0 s
  · exact absurd h0 (h.not_marked (hall i i.zero_le (by rwa [Nat.zero_add])))
  · rw [heq]
    exact hne s'

theorem Slots.not_wild (h : Slots buf slot) (ht : Tame buf n) {s : σ} : slotLoop slot n 0 s ≠ .wild := by
  obtain ⟨k, s', -, hall, ⟨-, heq⟩ | ⟨hk, heq, -⟩⟩ := slotLoop_cases slot n 0 s
  · intro hw
    cases heq.symm.trans hw
  · rw [Nat.zero_add] at hk
    exact fun hw => ht k hk (fun j hj => h.not_marked (hall j j.zero_le hj)) ((h.wild k s').1 (heq.symm.trans hw))

/-- A loop in which only the end of the directory ends a slot. -/
theorem Slots.done_mark (hdone : ∀ i s r, slot i s = .done r → slotField buf i 0 1 = 0x00) {s : σ} {r : ρ}
    (h : slotLoop slot n 0 s = .done r) : Marked buf n := by
  obtain ⟨k, s', -, -, ⟨-, heq⟩ | ⟨hk, heq, -⟩⟩ := slotLoop_cases slot n 0 s
  · cases heq.symm.trans h
  · rw [Nat.zero_add] at hk
    exact ⟨k, hk, hdone k s' r (heq.symm.trans h)⟩

/-- Such a loop strays if there is a slot to stray at in front of the end. -/
theorem Slots.isWild (h : Slots buf slot) (hdone : ∀ i s r, slot i s = .done r → slotField buf i 0 1 = 0x00)
    (ht : ¬Tame buf n) (s : σ) : slotLoop slot n 0 s = .wild := by
  rw [Tame] at ht
  push Not at ht
  obtain ⟨i, hi, hbefore, hstray⟩ := ht
  have hi' : ¬∃ s s', slot i s = .more s' := by
    rintro ⟨s, s', hs⟩
    cases ((h.wild i s).2 hstray).symm.trans hs
  obtain ⟨k, s', -, hall, ⟨rfl, -⟩ | ⟨-, heq, hne⟩⟩ := slotLoop_cases slot n 0 s
  · exact absurd (hall i i.zero_le (by rwa [Nat.zero_add])) hi'
  · rw [heq]
    cases hs : slot k s' with
    | wild => rfl
    | more s'' => exact absurd hs (hne s'')
    | done r =>
      have h0 := hdone k s' r hs
      rcases Nat.lt_trichotomy k i with hlt | rfl | hlt
      · exact absurd h0 (hbefore k hlt)
      · exact absurd h0 hstray.1
      · exact absurd (hall i i.zero_le hlt) hi'

/-- A slot of ordinal zero is not that of a deleted entry. -/
theorem Strays.not_deleted (h : Strays buf i) : slotField buf i 0 1 ≠ 0xE5 := by
  intro hd
  have hz := h.2.2.1
  rw [hd] at hz
  exact absurd hz (by decide)

theorem dirReadSlot_slots (cb : DirCallback σ) (buf : Buf) (c : Nat) : Slots buf (dirReadSlot cb buf c) where
  mark i l h0 := ⟨_, if_pos h0⟩
  wild i l := by
    unfold dirReadSlot
    split
    · rename_i h0
      exact ⟨(by rintro ⟨⟩), fun h => absurd h0 h.1⟩
    split
    · rename_i h5
      exact ⟨(by rintro ⟨⟩), fun h => absurd h5 h.not_deleted⟩
    split
    · rename_i hs
      exact ⟨fun _ => hs, fun _ => rfl⟩
    rename_i hs
    refine ⟨fun heq => ?_, fun h => absurd h hs⟩
    split at heq
    · cases heq
    split at heq
    · cases heq
    cases cb with
    | none => cases heq
    | some cb =>
      dsimp only at heq
      split at heq
      · cases heq
      · cases heq

theorem findInsideSlot_slots (name : List UInt8) (buf : Buf) (c : Nat) : Slots buf (findInsideSlot buf c name) where
  mark i lfn h0 := by
    refine ⟨none, ?_⟩
    rw [findInsideSlot, if_neg fun hs => hs.1 h0, findSlot, if_pos h0]
    rfl
  wild i lfn := by
    rw [findInsideSlot]
    split
    · rename_i hs
      exact ⟨fun _ => hs, fun _ => rfl⟩
    · rename_i hs
      refine ⟨fun heq => ?_, fun h => absurd h hs⟩
      cases hf : findSlot buf c name i lfn <;> rw [hf] at heq <;> cases heq

/-- A callback that is not there stops nothing. -/
theorem dirReadSlot_done (buf : Buf) (c : Nat) (i : Nat) (l : Listing σ) (r : Listed σ)
    (h : dirReadSlot none buf c i l = .done r) : slotField buf i 0 1 = 0x00 := by
  unfold dirReadSlot at h
  split at h
  · assumption
  split at h
  · cases h
  split at h
  · cases h
  split at h
  · cases h
  split at h
  · cases h
  · cases h

/-- A name that is longer than the names of entries are. -/
def longerName : List UInt8 := List.replicate 256 97

theorem entryName_length_le (buf : Buf) (i : Nat) (lfn : Lfn) : (entryName buf i lfn).length ≤ maxName := by
  rw [entryName]
  split
  · refine (List.takeWhile_prefix _).length_le.trans_eq ?_
    rw [List.length_map, List.length_range]
  · have htrim : ∀ s : List UInt8, (trimBlanks s).length ≤ s.length := fun s => (List.rdropWhile_prefix ..).length_le
    have hbase := (htrim ((slotName83 buf i).take 8)).trans (List.length_take_le ..)
    have hext := htrim ((slotName83 buf i).drop 8)
    rw [List.length_drop, slotName83, List.length_map, List.length_range] at hext
    rw [nameFrom83, maxName]
    split
    · rw [List.length_append, List.length_cons]
      rw [slotName83] at hbase ⊢
      omega
    · omega

theorem nameEq_longerName (buf : Buf) (i : Nat) (lfn : Lfn) : nameEq (entryName buf i lfn) longerName = false := by
  rw [nameEq, beq_eq_false_iff_ne]
  intro heq
  have hlen := congrArg List.length heq
  have hlong : cString longerName = longerName := by
    refine List.takeWhile_eq_self_iff.2 fun c hc => ?_
    rw [List.eq_of_mem_replicate hc]
    decide
  rw [List.length_map, List.length_map, hlong, longerName, List.length_replicate] at hlen
  have hle : (cString (entryName buf i lfn)).length ≤ maxName :=
    (List.takeWhile_prefix _).length_le.trans (entryName_length_le buf i lfn)
  rw [hlen] at hle
  exact absurd hle (by decide)

/-- Nothing is found under it. -/
theorem findInsideSlot_done (buf : Buf) (c : Nat) (i : Nat) (lfn : Lfn) (r : Option FileInfo)
    (h : findInsideSlot buf c longerName i lfn = .done r) : slotField buf i 0 1 = 0x00 := by
  rw [findInsideSlot] at h
  split at h
  · cases h
  rw [findSlot] at h
  split at h
  · assumption
  split at h
  · cases h
  split at h
  · cases h
  split at h
  · cases h
  rw [if_neg (by rw [nameEq_longerName]; decide)] at h
  cases h

/-! ## The walk to the last cluster -/

theorem lastClusterLoop_ends (h : AtRest fs) (hc : c < 2 ^ 32) (hk : fs.follow^[k] c < 2) {fuel : Nat}
    (hfuel : k < fuel) : lastClusterLoop fuel c fs ≠ none := by
  induction fuel generalizing fs c k with
  | zero => omega
  | succ fuel ih =>
    rw [lastClusterLoop]
    split
    · exact Option.some_ne_none _
    · rename_i hge
      obtain ⟨hr, hnext, -⟩ := h.next hc
      rw [bind_run (lift_run (Prod.mk.eta ..).symm)]
      split
      · exact Option.some_ne_none _
      · rename_i hne
        obtain _ | k := k
        · exact absurd hk hge
        · have hx := hnext.resolve_left (not_or.1 hne).1
          rw [iterate_succ_apply, ← hx, ← hr.follow] at hk
          refine ih hr.rest ?_ hk (by omega)
          rw [hx]
          exact (follow_lt fs c).trans (by decide)

theorem lastClusterLoop_stuck (h : AtRest fs) (he : NoErrors fs) (hc : c < 2 ^ 32)
    (hk : ∀ k, ¬fs.follow^[k] c < 2) (fuel : Nat) : lastClusterLoop fuel c fs = none := by
  induction fuel generalizing fs c with
  | zero => rfl
  | succ fuel ih =>
    obtain ⟨hr, -, hnext⟩ := h.next hc
    have hstep : fat32NextCluster c fs = (fs.follow c, (fat32NextCluster c fs).2) := Prod.ext (hnext he) rfl
    have h1 : ¬fs.follow c < 2 := hk 1
    rw [lastClusterLoop, if_neg (show ¬c < 2 from hk 0), bind_run (lift_run hstep),
      if_neg (not_or.2 ⟨by omega, Nat.not_le.2 (follow_lt fs c)⟩)]
    refine ih hr.rest (hr.touches.noErrors he) ((follow_lt fs c).trans (by decide)) fun k hend => hk (k + 1) ?_
    rwa [hr.follow, ← iterate_succ_apply] at hend

theorem last_within (h : ∃ k, fs.follow^[k] c < 2) : ∃ k < maxSteps, fs.follow^[k] c < 2 := by
  obtain ⟨_ | k, hk⟩ := h
  · exact ⟨0, by decide, hk⟩
  rw [iterate_succ_apply] at hk
  have hfew : ∀ x, IsCluster x → x ∈ Finset.Ico 2 clusterEoc := fun x hx => Finset.mem_Ico.2 hx
  obtain ⟨j, hj, hend⟩ := Trail.exists_iterate_le_card hfew ⟨k, fun hx => Nat.not_le.2 hk hx.1⟩
  rw [Nat.card_Ico] at hj
  refine ⟨j + 1, lt_of_le_of_lt (Nat.add_le_add_right hj 1) (by decide), ?_⟩
  rw [iterate_succ_apply]
  refine Nat.lt_of_not_le fun hge => hend ⟨hge, ?_⟩
  rw [← iterate_succ_apply, Function.iterate_succ_apply']
  exact follow_lt ..

/-! ## Every scan -/

theorem AtRest.withEnv (h : AtRest fs) (env : Nat → Answer) : AtRest (fs.withEnv env) :=
  ⟨h.clean, h.empty, h.cached⟩

theorem malloc_cases (fs : Fs) : malloc fs = (none, fs.ask.2) ∨ malloc fs = (some fs.ask.1.junk, fs.ask.2) := by
  rw [malloc]
  split
  · exact Or.inr rfl
  · exact Or.inl rfl

theorem malloc_noErrors (he : NoErrors fs) : malloc fs = (some fs.ask.1.junk, fs.ask.2) := by
  rw [malloc, if_pos (show fs.ask.1.ok = true from he 0)]

/-- **A scan of a directory ends** if the links lead to an end and no slot strays. -/
theorem slotScan_ends {g : Nat → Buf → Nat → σ → Step ρ σ} (hg : ∀ c buf, Slots buf (g c buf))
    (h : AtRest fs) (hends : fs.Ends c) {s : σ} :
    scanLoop (fun slots c buf s => slotLoop (g c buf) slots 0 s) failed ended maxSteps c s fs ≠ none := by
  obtain ⟨k, hfuel, hk, htame⟩ := hends.within
  exact scanLoop_ends (fun _ c buf _ ht => (hg c buf).not_wild ht)
    (fun _ c buf _ hm _ => (hg c buf).not_more hm) h hk htame hfuel

/-- **A scan that nothing but an end ends** has no result otherwise. -/
theorem slotScan_stuck {g : Nat → Buf → Nat → σ → Step ρ σ} (hg : ∀ c buf, Slots buf (g c buf))
    (hdone : ∀ c buf i s r, g c buf i s = .done r → slotField buf i 0 1 = 0x00)
    (h : AtRest fs) (he : NoErrors fs) (hends : ¬fs.Ends c) (fuel : Nat) {s : σ} :
    scanLoop (fun slots c buf s => slotLoop (g c buf) slots 0 s) failed ended fuel c s fs = none :=
  scanLoop_stuck (fun _ c buf s ht => (hg c buf).isWild (hdone c buf) ht s)
    (fun _ c buf _ hm _ hd => hm (Slots.done_mark (hdone c buf) hd)) h he hends fuel

theorem findInside_ends (h : AtRest fs) (hends : fs.Ends (dirOrRoot fs.vol dir)) : findInside dir name fs ≠ none := by
  rw [findInside, bind_run (get_run _)]
  rcases malloc_cases fs with hm | hm
  · rw [bind_run (lift_run hm)]
    exact Option.some_ne_none _
  · rw [bind_run (lift_run hm)]
    exact slotScan_ends (g := fun c buf => findInsideSlot buf c name) (fun c buf => findInsideSlot_slots name buf c)
      h.ask.rest (h.ask.ends.2 hends)

theorem findInsideLoop_stuck (h : AtRest fs) (he : NoErrors fs) (hends : ¬fs.Ends c) (fuel : Nat) (lfn : Lfn) :
    findInsideLoop longerName fuel c lfn fs = none :=
  slotScan_stuck (g := fun c buf => findInsideSlot buf c longerName)
    (fun c buf => findInsideSlot_slots longerName buf c) (fun c buf => findInsideSlot_done buf c) h he hends fuel

theorem findInside_stuck (h : AtRest fs) (he : NoErrors fs) (hends : ¬fs.Ends (dirOrRoot fs.vol dir)) :
    findInside dir longerName fs = none := by
  have hr := h.ask
  rw [findInside, bind_run (get_run _), bind_run (lift_run (malloc_noErrors he))]
  exact findInsideLoop_stuck hr.rest (hr.touches.noErrors he) (fun hc => hends (hr.ends.1 hc)) maxSteps noLfn

theorem fat32DirRead_ends (cb : DirCallback σ) (ctx : σ) (h : AtRest fs)
    (hends : fs.vol.mounted = false ∨ fs.Ends (dirOrRoot fs.vol dir)) : fat32DirRead dir cb ctx fs ≠ none := by
  rw [fat32DirRead, bind_run (get_run _)]
  split
  · exact Option.some_ne_none _
  · rename_i hm
    rw [bind_run (get_run _)]
    rcases malloc_cases fs with hm' | hm'
    · rw [bind_run (lift_run hm')]
      exact Option.some_ne_none _
    · rw [bind_run (lift_run hm')]
      exact slotScan_ends (g := fun c buf => dirReadSlot cb buf c) (fun c buf => dirReadSlot_slots cb buf c)
        h.ask.rest (h.ask.ends.2 (hends.resolve_left hm))

theorem dirReadLoop_stuck (h : AtRest fs) (he : NoErrors fs) (hends : ¬fs.Ends c) (fuel : Nat) (l : Listing σ) :
    dirReadLoop none fuel c l fs = none :=
  slotScan_stuck (g := fun c buf => dirReadSlot none buf c) (fun c buf => dirReadSlot_slots none buf c)
    (fun c buf => dirReadSlot_done buf c) h he hends fuel

theorem fat32DirRead_stuck (ctx : σ) (h : AtRest fs) (he : NoErrors fs) (hm : fs.vol.mounted = true)
    (hends : ¬fs.Ends (dirOrRoot fs.vol dir)) : fat32DirRead dir none ctx fs = none := by
  have hr := h.ask
  rw [fat32DirRead, bind_run (get_run _), if_neg (by rw [hm]; decide), bind_run (get_run _),
    bind_run (lift_run (malloc_noErrors he))]
  exact dirReadLoop_stuck hr.rest (hr.touches.noErrors he) (fun hc => hends (hr.ends.1 hc)) maxSteps _

theorem openAppend_ends {info : FileInfo} (h : AtRest fs) (hinfo : info.firstCluster < 2 ^ 32)
    (hends : ∃ k, fs.follow^[k] info.firstCluster < 2) : openAppend info fs ≠ none := by
  obtain ⟨k, hfuel, hk⟩ := last_within hends
  obtain ⟨⟨last, fs1⟩, hrun⟩ := Option.ne_none_iff_exists'.1 (lastClusterLoop_ends h hinfo hk hfuel)
  rw [openAppend, bind_run hrun]
  exact Option.some_ne_none _

theorem openAppend_stuck {info : FileInfo} (h : AtRest fs) (he : NoErrors fs) (hinfo : info.firstCluster < 2 ^ 32)
    (hends : ∀ k, ¬fs.follow^[k] info.firstCluster < 2) : openAppend info fs = none := by
  show (lastClusterLoop maxSteps info.firstCluster fs).bind _ = none
  rw [lastClusterLoop_stuck h he hinfo hends, Option.bind_none]

/-- A device that never fails. -/
def noErrors : Nat → Answer := fun _ => ⟨true, fun _ => 0⟩

/-- **A scan ends if the links lead to an end, and only then.**  For every volume with nothing to be written,
whatever the table and the clusters hold: whichever requests fail, and whatever is looked for or called back,
the search for a name and the enumeration of a directory end, without a store in front of `lfn`, if and only if the
links from the directory lead to a number that is none of a cluster, or to a cluster in which the end of the directory
is marked, and no slot in front of that end strays; and the walk that opens a file for appending ends if and only if
the links from its first cluster lead to a number below `2`. -/
theorem scans_end_iff (h : AtRest fs) (dir : Nat) (ctx : σ) (info : FileInfo) (hinfo : info.firstCluster < 2 ^ 32) :
    ((∀ env name, findInside dir name (fs.withEnv env) ≠ none) ↔ fs.Ends (dirOrRoot fs.vol dir)) ∧
    ((∀ env (cb : DirCallback σ), fat32DirRead dir cb ctx (fs.withEnv env) ≠ none) ↔
      fs.vol.mounted = false ∨ fs.Ends (dirOrRoot fs.vol dir)) ∧
    ((∀ env, openAppend info (fs.withEnv env) ≠ none) ↔ ∃ k, fs.follow^[k] info.firstCluster < 2) := by
  have he : NoErrors (fs.withEnv noErrors) := fun _ => rfl
  have hw := h.withEnv noErrors
  refine ⟨⟨fun hall => ?_, fun hends env name => findInside_ends (h.withEnv env) hends⟩,
    ⟨fun hall => ?_, fun hends env cb => fat32DirRead_ends cb ctx (h.withEnv env) hends⟩,
    ⟨fun hall => ?_, fun hends env => openAppend_ends (h.withEnv env) hinfo hends⟩⟩
  · by_contra hends
    exact hall noErrors longerName (findInside_stuck hw he hends)
  · by_contra hends
    obtain ⟨hm, hends⟩ := not_or.1 hends
    exact hall noErrors none (fat32DirRead_stuck ctx hw he (eq_true_of_ne_false hm) hends)
  · by_contra hends
    exact hall noErrors (openAppend_stuck hw he hinfo fun k hk => hends ⟨k, hk⟩)

theorem scans_end_iff_tiny :
    ∃ m, fat32Mount 1000 tinyFs = (true, m) ∧ ∀ env name, findInside 0 name (m.withEnv env) ≠ none := by
  have hm : fat32Mount 1000 tinyFs = (true, (fat32Mount 1000 tinyFs).2) := Prod.ext (by decide) rfl
  refine ⟨_, hm, (scans_end_iff (atRest_of_mount hm) 0 () ⟨[65], 2, 0, 0x20, 2, 0⟩ (by decide)).1.2 ⟨0, Or.inr ?_, ?_⟩⟩
  · exact ⟨0, by decide, by decide⟩
  · intro j hj _ i _ hbefore hstray
    obtain rfl := Nat.le_zero.1 hj
    have hzero : slotField ((fat32Mount 1000 tinyFs).2.data 2) 0 0 1 = 0x00 := by decide
    rcases Nat.eq_zero_or_pos i with rfl | hi
    · exact hstray.1 hzero
    · exact hbefore 0 hi hzero

/-! ## Two directories whose scans do not come back -/

/-- A disk whose root directory has one cluster, full of entries that have been deleted, with a link to itself. -/
def selfLinkedDisk : Buf := fill (put tinyDisk 520 4 2) 1536 512 0xE5

/-- The disk on a device that never fails. -/
def selfLinkedFs : Fs := ⟨zeroVolume, selfLinkedDisk, noErrors⟩

/-- A disk whose root directory begins with a long-name slot of ordinal zero, for an `a`, and ends behind it. -/
def strayFs : Fs := ⟨zeroVolume, put (put (put tinyDisk 1536 1 0x40) 1547 1 0x0F) 1537 2 97, noErrors⟩

/-- Neither scan of a mounted device ends where the links do not. -/
theorem mounted_stuck {m : Fs} {nSectors : Nat} (hm : fat32Mount nSectors fs = (true, m)) (he : NoErrors m)
    (hmounted : m.vol.mounted = true) (hends : ¬m.Ends (dirOrRoot m.vol dir)) :
    findInside dir longerName m = none ∧ fat32DirRead dir none () m = none :=
  ⟨findInside_stuck (atRest_of_mount hm) he hends, fat32DirRead_stuck () (atRest_of_mount hm) he hmounted hends⟩

/-- Mounted, the first is searched for ever, however many steps are made, and listed for ever; and a file whose first
cluster is that one is not opened for appending.  In the second, the end of the directory is marked in its first
cluster, and both scans store a character in front of `lfn` before they come to it. -/
theorem selfLinked_hangs : (∃ m, fat32Mount 1000 selfLinkedFs = (true, m) ∧ findInside 0 longerName m = none ∧
      fat32DirRead 0 none () m = none ∧ openAppend ⟨[65], 2, 0, 0x20, 2, 0⟩ m = none ∧
      ∀ fuel, findInsideLoop longerName fuel 2 noLfn m = none ∧ dirReadLoop none fuel 2 ⟨noLfn, 0, ()⟩ m = none ∧
        lastClusterLoop fuel 2 m = none) ∧
    ∃ m, fat32Mount 1000 strayFs = (true, m) ∧ m.EndsAt (dirOrRoot m.vol 0) ∧ Strays (m.data 2) 0 ∧
      findInside 0 longerName m = none ∧ fat32DirRead 0 none () m = none := by
  constructor
  · have hm : fat32Mount 1000 selfLinkedFs = (true, (fat32Mount 1000 selfLinkedFs).2) := Prod.ext (by decide) rfl
    generalize hmm : (fat32Mount 1000 selfLinkedFs).2 = m at hm
    have he : NoErrors m := hmm ▸ fun n => rfl
    have hfollow : m.follow 2 = 2 := hmm ▸ by decide
    have hiter : ∀ k, m.follow^[k] 2 = 2 := fun k => Function.iterate_fixed hfollow k
    have hendsAt : ¬m.EndsAt 2 := by
      rw [← hmm]
      rintro (hc | ⟨i, hi, h0⟩)
      · exact hc (by decide)
      · have hall : ∀ i < 16, slotField ((fat32Mount 1000 selfLinkedFs).2.data 2) i 0 1 ≠ 0x00 := by decide
        exact hall i hi h0
    have hends : ¬m.Ends 2 := by
      rintro ⟨k, hk, -⟩
      rw [hiter] at hk
      exact hendsAt hk
    have hroot : dirOrRoot m.vol 0 = 2 := hmm ▸ by decide
    have hlast : ∀ k, ¬m.follow^[k] 2 < 2 := by
      intro k
      rw [hiter]
      decide
    have h := atRest_of_mount hm
    obtain ⟨hfind, hlist⟩ := mounted_stuck hm he (hmm ▸ by decide) (by rwa [hroot])
    exact ⟨m, hm, hfind, hlist, openAppend_stuck h he (by decide) hlast, fun fuel =>
      ⟨findInsideLoop_stuck h he hends fuel noLfn, dirReadLoop_stuck h he hends fuel _,
        lastClusterLoop_stuck h he (by decide) hlast fuel⟩⟩
  · have hm : fat32Mount 1000 strayFs = (true, (fat32Mount 1000 strayFs).2) := Prod.ext (by decide) rfl
    generalize hmm : (fat32Mount 1000 strayFs).2 = m at hm
    have he : NoErrors m := hmm ▸ fun n => rfl
    have hroot : dirOrRoot m.vol 0 = 2 := hmm ▸ by decide
    have hstray : Strays (m.data 2) 0 := hmm ▸ by decide
    have hmark : m.EndsAt 2 := by
      rw [← hmm]
      exact Or.inr ⟨1, by decide, by decide⟩
    have hends : ¬m.Ends 2 := by
      rintro ⟨k, -, htame⟩
      refine htame 0 k.zero_le (show IsCluster 2 by decide) 0 ?_ (fun j hj => absurd hj (Nat.not_lt_zero j)) hstray
      rw [← hmm]
      decide
    exact ⟨m, hm, by rwa [hroot], hstray, mounted_stuck hm he (hmm ▸ by decide) (by rwa [hroot])⟩

end WuBuOS.Fat32
