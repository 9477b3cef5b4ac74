import WuBuOS.Kernel.Fat32.ShortName

/-!
# Creating an entry can fail too late

`fat32_create` allocates the cluster of the new entry before it looks for a place for the entry, and
nowhere gives it back.  So whenever it fails after that, a cluster stays allocated that no entry has;
and if there was no place, every cluster that was put behind the directory in the search stays there.

A request can fail at any moment, so there always is such a failure as long as there is a free cluster.
To say so, a call is run again with other answers to the requests that come after it (`Takes`).  Without
failing requests, what is left is a directory that has no room and cannot get any.
-/

namespace WuBuOS.Fat32

open Bytes

variable {α β : Type} {fs fs' : Fs} {name : List UInt8} {ds : List Nat} {dir attr c n : Nat}

/-! ## The answers that a call takes -/

/-- The volume with other answers to come. -/
def Fs.withEnv (fs : Fs) (env : Nat → Answer) : Fs := { fs with env := env }

/-- What a call does depends on the answers that it takes, and not on those still to come. -/
def Takes (f : Fs → α × Fs) : Prop :=
  ∀ fs : Fs, ∃ k, ∀ env : Nat → Answer, (∀ n < k, env n = fs.env n) →
    f (fs.withEnv env) = ((f fs).1, (f fs).2.withEnv fun n => env (n + k))

/-- No answers are taken. -/
theorem Takes.still {f : Fs → α × Fs} (h : ∀ fs env, f (Fs.withEnv fs env) = ((f fs).1, (f fs).2.withEnv env)) :
    Takes f := fun fs => ⟨0, fun env _ => h fs env⟩

theorem Takes.ask : Takes Fs.ask := fun fs =>
  ⟨1, fun env h => by rw [Fs.ask, Fs.ask, ← h 0 Nat.one_pos]; rfl⟩

theorem Takes.bind {f : Fs → α × Fs} {g : α → Fs → β × Fs} (hf : Takes f) (hg : ∀ a, Takes (g a)) :
    Takes fun fs => g (f fs).1 (f fs).2 := by
  intro fs
  obtain ⟨k, hk⟩ := hf fs
  obtain ⟨l, hl⟩ := hg (f fs).1 (f fs).2
  have hrest : ∀ n, (f fs).2.env n = fs.env (n + k) := by
    intro n
    have h := hk fs.env fun _ _ => rfl
    exact congrFun (congrArg (fun r => r.2.env) h) n
  refine ⟨k + l, fun env h => ?_⟩
  have hfirst := hk env fun n hn => h n (by omega)
  have hsecond := hl (fun n => env (n + k)) fun n hn => by rw [hrest]; exact h _ (by omega)
  dsimp only
  rw [hfirst, hsecond]
  simp only [Nat.add_assoc, Nat.add_comm l k]

/-- A call that is one or another, by the volume and the disk. -/
theorem Takes.cases {f : Fs → α × Fs}
    (h : ∀ fs : Fs, ∃ g : Fs → α × Fs, Takes g ∧ ∀ env, f (fs.withEnv env) = g (fs.withEnv env)) : Takes f := by
  intro fs
  obtain ⟨g, hg, heq⟩ := h fs
  obtain ⟨k, hk⟩ := hg fs
  refine ⟨k, fun env henv => ?_⟩
  rw [heq env, hk env henv, show f fs = g fs from heq fs.env]

theorem Takes.malloc : Takes malloc :=
  Takes.ask.bind (g := fun a fs => (if a.ok then some a.junk else none, fs)) fun _ => .still fun _ _ => rfl

theorem Takes.blkRead (lba n : Nat) : Takes (blkRead lba n) :=
  Takes.cases fun fs => ⟨fun fs' => (if fs'.ask.1.ok then some (sectors fs.disk lba n) else none, fs'.ask.2),
    Takes.ask.bind (g := fun a fs' => (if a.ok then some (sectors fs.disk lba n) else none, fs'))
      fun _ => .still fun _ _ => rfl, fun _ => rfl⟩

theorem Takes.blkWrite (lba n : Nat) (buf : Buf) : Takes (blkWrite lba n buf) :=
  Takes.ask.bind (g := fun a fs => (a.ok, { fs with
    disk := write fs.disk (lba * sectorSize) (n * sectorSize) (if a.ok then buf else a.junk) }))
    fun _ => .still fun _ _ => rfl

/-- A call is made, and another one if it succeeds. -/
theorem Takes.unless {f : Fs → Bool × Fs} {g : Fs → β × Fs} (b : β) (hf : Takes f) (hg : Takes g) :
    Takes fun fs => if (f fs).1 = false then (b, (f fs).2) else g (f fs).2 :=
  hf.bind (g := fun ok fs => if ok = false then (b, fs) else g fs) fun ok => by
    cases ok with
    | false => exact .still fun _ _ => rfl
    | true => exact hg

/-- A call is made, and another one with what it returns. -/
theorem Takes.option {f : Fs → Option α × Fs} {g : α → Fs → β × Fs} {h : Fs → β × Fs} (b : β) (hf : Takes f)
    (hg : ∀ a, Takes (g a)) (hnone : ∀ fs fs', f fs = (none, fs') → h fs = (b, fs'))
    (hsome : ∀ fs fs' a, f fs = (some a, fs') → h fs = g a fs') : Takes h := by
  have hbind : Takes fun fs => (fun (r : Option α) fs => r.elim (b, fs) (g · fs)) (f fs).1 (f fs).2 :=
    hf.bind (g := fun r fs => r.elim (b, fs) (g · fs)) fun r => by
      cases r with
      | none => exact .still fun _ _ => rfl
      | some a => exact hg a
  convert hbind using 1
  funext fs
  rcases hr : f fs with ⟨r, fs'⟩
  cases r with
  | none => exact hnone fs fs' hr
  | some a => exact hsome fs fs' a hr

theorem Takes.fat32Flush : Takes fat32Flush := by
  refine .cases fun fs => ?_
  cases hcache : fs.vol.fatCache with
  | none =>
    refine ⟨fun fs => (true, fs), .still fun _ _ => rfl, fun env => ?_⟩
    simp only [Fat32.fat32Flush, Fs.withEnv, hcache]
  | some cache =>
    cases hd : fs.vol.cachedDirty with
    | false =>
      refine ⟨fun fs => (true, fs), .still fun _ _ => rfl, fun env => ?_⟩
      simp only [Fat32.fat32Flush, Fs.withEnv, hcache, hd, if_true]
    | true =>
      have hclean : Takes fun fs : Fs => (true, fs.setClean) := .still fun _ _ => rfl
      have hfirst := Takes.blkWrite (fs.vol.fat1Lba + fs.vol.cachedFatSector) 1 cache
      have hsecond := Takes.blkWrite (fs.vol.fat2Lba + fs.vol.cachedFatSector) 1 cache
      by_cases hn : fs.vol.numFats < 2
      · refine ⟨_, hfirst.unless false hclean, fun env => ?_⟩
        simp only [Fat32.fat32Flush, Fs.withEnv, hcache, hd, hn, if_true, Bool.true_eq_false, if_false]
        rfl
      · refine ⟨_, hfirst.unless false (hsecond.unless false hclean), fun env => ?_⟩
        simp only [Fat32.fat32Flush, Fs.withEnv, hcache, hd, hn, Bool.true_eq_false, if_false]
        rfl

/-- `ensureCache` where there is no cache. -/
def freshCache (fs : Fs) : Bool × Fs :=
  match malloc fs with
  | (none, fs) => (false, fs)
  | (some buf, fs) => (true, { fs with vol := { fs.vol with fatCache := some buf } })

theorem Takes.ensureCache : Takes ensureCache := by
  refine .cases fun fs => ?_
  cases hcache : fs.vol.fatCache with
  | some cache =>
    refine ⟨fun fs => (true, fs), .still fun _ _ => rfl, fun env => ?_⟩
    simp only [Fat32.ensureCache, Fs.withEnv, hcache, Option.isSome_some, if_true]
  | none =>
    refine ⟨freshCache,
      Takes.malloc.option (g := fun buf fs => (true, { fs with vol := { fs.vol with fatCache := some buf } }))
        false (fun _ => .still fun _ _ => rfl) (fun _ _ h => by rw [freshCache, h])
        (fun _ _ _ h => by rw [freshCache, h]), fun env => ?_⟩
    have hno : ¬(fs.withEnv env).vol.fatCache.isSome := by simp [Fs.withEnv, hcache]
    exact if_neg hno

theorem Takes.flushIfDirty : Takes flushIfDirty := by
  refine .cases fun fs => ?_
  cases hd : fs.vol.cachedDirty with
  | false =>
    refine ⟨fun fs => (true, fs), .still fun _ _ => rfl, fun env => ?_⟩
    simp only [Fat32.flushIfDirty, Fs.withEnv, hd, Bool.false_eq_true, if_false]
  | true =>
    refine ⟨_, Takes.fat32Flush, fun env => ?_⟩
    simp only [Fat32.flushIfDirty, Fs.withEnv, hd, if_true]

/-- The second part of `loadSector`. -/
def readSector (s : Nat) (fs : Fs) : Bool × Fs :=
  match blkRead (fs.vol.fat1Lba + s) 1 fs with
  | (none, fs) => (false, fs)
  | (some buf, fs) => (true, { fs with vol := { fs.vol with fatCache := some buf, cachedFatSector := s } })

theorem Takes.loadSector (s : Nat) : Takes (loadSector s) := by
  refine Takes.flushIfDirty.unless (g := readSector s) false (.cases fun fs => ?_)
  exact ⟨fun fs' => match Fat32.blkRead (fs.vol.fat1Lba + s) 1 fs' with
      | (none, fs) => (false, fs)
      | (some buf, fs) => (true, { fs with vol := { fs.vol with fatCache := some buf, cachedFatSector := s } }),
    (Takes.blkRead _ 1).option (g := fun buf fs =>
      (true, { fs with vol := { fs.vol with fatCache := some buf, cachedFatSector := s } }))
      false (fun _ => .still fun _ _ => rfl) (fun _ _ h => by rw [h]) (fun _ _ _ h => by rw [h]), fun _ => rfl⟩

theorem Takes.cacheForRead (s : Nat) : Takes (cacheForRead s) := by
  refine .cases fun fs => ?_
  by_cases h : fs.vol.fatCache.isNone ∨ s ≠ fs.vol.cachedFatSector
  · exact ⟨_, Takes.ensureCache.unless false (Takes.loadSector s), fun env => if_pos h⟩
  · exact ⟨fun fs => (true, fs), .still fun _ _ => rfl, fun env => if_neg h⟩

theorem Takes.cacheForWrite (s : Nat) : Takes (cacheForWrite s) := by
  refine Takes.ensureCache.unless (g := fun fs => if s ≠ fs.vol.cachedFatSector then Fat32.loadSector s fs
    else (true, fs)) false (.cases fun fs => ?_)
  by_cases h : s ≠ fs.vol.cachedFatSector
  · exact ⟨_, Takes.loadSector s, fun env => if_pos h⟩
  · exact ⟨fun fs => (true, fs), .still fun _ _ => rfl, fun env => if_neg h⟩

theorem Takes.fatReadEntry (c : Nat) : Takes (fatReadEntry c) :=
  (Takes.cacheForRead _).unless (g := fun fs =>
    (fs.vol.fatCache.map fun cache => low28 (entryAt cache (c % entriesPerSector)), fs)) none
    (.still fun _ _ => rfl)

/-- The second part of `fatWriteEntry`. -/
def storeEntry (c v : Nat) (fs : Fs) : Bool × Fs :=
  (true, { fs with vol := { fs.vol with
    fatCache := fs.vol.fatCache.map fun cache => put cache (4 * (c % entriesPerSector)) 4
      (mergeEntry (entryAt cache (c % entriesPerSector)) v)
    cachedDirty := true } })

theorem Takes.fatWriteEntry (c v : Nat) : Takes (fatWriteEntry c v) :=
  (Takes.cacheForWrite _).unless (g := storeEntry c v) false (.still fun _ _ => rfl)

/-! ## Allocation -/

/-- A turn of `scanFree` on the entry of the cluster `x`. -/
def scanEntry (count n x first found : Nat) (fs : Fs) : Option (Nat × Nat) × Fs :=
  match fatReadEntry x fs with
  | (none, fs) => (none, fs)
  | (some entry, fs) =>
    if entry = clusterFree then
      if count ≤ found + 1 then (some (if found = 0 then x else first, found + 1), fs)
      else scanFree count n (x + 1) (if found = 0 then x else first) (found + 1) fs
    else scanFree count n (x + 1) 0 0 fs

theorem Takes.scanFree (count n c first found : Nat) : Takes (scanFree count n c first found) := by
  induction n generalizing c first found with
  | zero => exact .still fun _ _ => rfl
  | succ n ih =>
    refine .cases fun fs => ?_
    generalize hat : (if fs.vol.totalClusters ≤ c then 2 else c) = x
    have hrest : ∀ entry : Nat, Takes fun fs =>
        if entry = clusterFree then
          if count ≤ found + 1 then (some (if found = 0 then x else first, found + 1), fs)
          else Fat32.scanFree count n (x + 1) (if found = 0 then x else first) (found + 1) fs
        else Fat32.scanFree count n (x + 1) 0 0 fs := by
      intro entry
      by_cases h1 : entry = clusterFree
      · by_cases h2 : count ≤ found + 1
        · simp only [if_pos h1, if_pos h2]
          exact .still fun _ _ => rfl
        · simp only [if_pos h1, if_neg h2]
          exact ih (x + 1) (if found = 0 then x else first) (found + 1)
      · simp only [if_neg h1]
        exact ih (x + 1) 0 0
    refine ⟨scanEntry count n x first found, (Takes.fatReadEntry x).option none hrest
      (fun _ _ h => by rw [scanEntry, h]) (fun _ _ _ h => by rw [scanEntry, h]), fun env => ?_⟩
    rw [← hat]
    rfl

theorem Takes.linkRun (first count n : Nat) : Takes (linkRun first count n) := by
  induction n with
  | zero => exact .still fun _ _ => rfl
  | succ n ih =>
    have h := (Takes.fatWriteEntry ((first + (count - (n + 1))) % 2 ^ 32)
      (if n = 0 then clusterEoc else (first + (count - (n + 1))) % 2 ^ 32 + 1)).unless false ih
    convert h using 1
    funext fs
    rw [Fat32.linkRun]
    rcases Fat32.fatWriteEntry ((first + (count - (n + 1))) % 2 ^ 32)
      (if n = 0 then clusterEoc else (first + (count - (n + 1))) % 2 ^ 32 + 1) fs with ⟨ok, fs'⟩
    cases ok with
    | false => rfl
    | true => rfl

/-- `fat32AllocClusters` with the run that the scan of the volume `v` finds. -/
def allocScanned (v : Volume) (count hint : Nat) (fs : Fs) : Nat × Fs :=
  match scanFree count v.totalClusters (if 2 ≤ hint then hint else 2) 0 0 fs with
  | (none, fs) => (0, fs)
  | (some (first, found), fs) =>
    if found < count then (0, fs)
    else
      match linkRun first count count fs with
      | (false, fs) => (0, fs)
      | (true, fs) => (first, { fs with vol := tookClusters first count fs.vol })

theorem Takes.fat32AllocClusters (count hint : Nat) : Takes (fat32AllocClusters count hint) := by
  by_cases hcount : count = 0
  · have heq : Fat32.fat32AllocClusters count hint = fun fs => (0, fs) := funext fun _ => if_pos hcount
    rw [heq]
    exact .still fun _ _ => rfl
  have hlink : ∀ r : Nat × Nat, Takes fun fs =>
      if r.2 < count then (0, fs)
      else if (Fat32.linkRun r.1 count count fs).1 = false then (0, (Fat32.linkRun r.1 count count fs).2)
      else (r.1, { (Fat32.linkRun r.1 count count fs).2 with
        vol := tookClusters r.1 count (Fat32.linkRun r.1 count count fs).2.vol }) := by
    intro r
    by_cases hr : r.2 < count
    · simp only [if_pos hr]
      exact .still fun _ _ => rfl
    · simp only [if_neg hr]
      exact (Takes.linkRun r.1 count count).unless (g := fun fs =>
        (r.1, { fs with vol := tookClusters r.1 count fs.vol })) 0 (.still fun _ _ => rfl)
  refine .cases fun fs => ?_
  refine ⟨_, (Takes.scanFree count fs.vol.totalClusters (if 2 ≤ hint then hint else 2) 0 0).option 0 hlink
    (h := allocScanned fs.vol count hint)
    (fun _ _ h => by rw [allocScanned, h]) (fun _ fs1 r h => ?_), fun env => if_neg hcount⟩
  rw [allocScanned, h]
  dsimp only
  split
  · rfl
  · rcases Fat32.linkRun r.1 count count fs1 with ⟨ok, fs2⟩
    cases ok with
    | false => rfl
    | true => rfl

/-- As long as no request fails before it is done, a cluster is allocated. -/
theorem alloc_withEnv (hs : Sound fs) (hfree : 0 < fs.free.card) (htot : 2 < fs.vol.totalClusters) :
    ∃ (new k : Nat) (fs1 : Fs), new ∈ fs.free ∧ fs1.table = Function.update fs.table new clusterEoc ∧
      ∀ env, (∀ n < k, env n = fs.env n) →
        fat32AllocClusters 1 0 (fs.withEnv env) = (new, fs1.withEnv fun n => env (n + k)) := by
  obtain ⟨new, fs1, ha, ⟨-, hfull, -⟩ | ⟨-, hnew, hg⟩⟩ := fat32AllocClusters_spec hs htot
  · omega
  obtain ⟨k, hk⟩ := Takes.fat32AllocClusters 1 0 fs
  rw [ha] at hk
  exact ⟨new, k, fs1, hnew, hg.table, hk⟩

/-! ## Whatever fails -/

/-- **Nothing is left behind**: the table is as it was, and so is what every cluster holds that is not free. -/
def LeavesNoTrace (fs fs' : Fs) : Prop :=
  fs'.table = fs.table ∧ ∀ c, fs.table c ≠ 0 → fs'.data c = fs.data c

theorem fatReadEntry_keeps (h : Consistent fs) (c : Nat) : Keeps fs (fatReadEntry c fs).2 := by
  obtain ⟨hk, -⟩ := cacheForRead_keeps h (c / entriesPerSector)
  rw [fatReadEntry]
  split
  · exact hk
  · exact hk

theorem fat32NextCluster_keeps (h : Consistent fs) (c : Nat) : Keeps fs (fat32NextCluster c fs).2 := by
  have hk := fatReadEntry_keeps h c
  rw [fat32NextCluster]
  split
  · exact .refl h
  · generalize fatReadEntry c fs = r at hk
    obtain ⟨o, fs1⟩ := r
    cases o with
    | none => exact hk
    | some e => exact hk

/-- The search changes nothing. -/
theorem findLoop_keeps {fuel : Nat} {lfn : Lfn} {r : Option FileInfo} (h : Consistent fs)
    (hrun : findLoop name fuel c lfn fs = some (r, fs')) : Keeps fs fs' := by
  induction fuel generalizing c lfn fs with
  | zero => cases hrun
  | succ fuel ih =>
    rw [findLoop] at hrun
    split at hrun
    · obtain ⟨buf, fs1, hread, hrun⟩ := bind_inv hrun
      have hk1 : Keeps fs fs1 := by
        obtain rfl : (readCluster c fs).2 = fs1 := congrArg Prod.snd (Option.some.inj hread)
        exact h.ask
      cases buf with
      | none =>
        obtain rfl := congrArg Prod.snd (Option.some.inj hrun)
        exact hk1
      | some buf =>
        obtain ⟨_, _, hget, hrun⟩ := bind_inv hrun
        rw [get_run] at hget
        cases hget
        cases hslots : findSlots buf c name (entriesPerCluster fs1.vol) 0 lfn with
        | stop | hit =>
          rw [hslots] at hrun
          obtain rfl := congrArg Prod.snd (Option.some.inj hrun)
          exact hk1
        | more lfn =>
          rw [hslots] at hrun
          obtain ⟨next, fs2, hnext, hrun⟩ := bind_inv hrun
          have hk2 : Keeps fs1 fs2 := by
            obtain rfl : (fat32NextCluster c fs1).2 = fs2 := congrArg Prod.snd (Option.some.inj hnext)
            exact fat32NextCluster_keeps hk1.consistent c
          exact (hk1.trans hk2).trans (ih (hk1.trans hk2).consistent hrun)
    · obtain rfl := congrArg Prod.snd (Option.some.inj hrun)
      exact .refl h

theorem fat32Find_keeps {r : Option FileInfo} (h : Consistent fs)
    (hrun : fat32Find dir name fs = some (r, fs')) : Keeps fs fs' := by
  rw [fat32Find, bind_run (get_run _)] at hrun
  obtain ⟨m, fs1, hm, hrun⟩ := bind_inv hrun
  have hk1 : Keeps fs fs1 := by
    obtain rfl : (malloc fs).2 = fs1 := congrArg Prod.snd (Option.some.inj hm)
    exact h.ask
  cases m with
  | none =>
    obtain rfl := congrArg Prod.snd (Option.some.inj hrun)
    exact hk1
  | some buf => exact hk1.trans (findLoop_keeps hk1.consistent hrun)

/-- There is no free cluster, so none is allocated. -/
theorem alloc_of_full (h : Consistent fs) (htable : ∀ c, InVolume fs.vol c → InTable fs.vol c)
    (htot : 2 < fs.vol.totalClusters) (hfull : fs.free = ∅) :
    ∃ fs1, fat32AllocClusters 1 0 fs = (0, fs1) ∧ Keeps fs fs1 := by
  have hin : ∀ j, InTable fs.vol (look fs.vol.totalClusters (scanStart 0) j) := fun j =>
    htable _ ⟨look_ge (scanStart_ge 0) j, look_lt htot j⟩
  obtain ⟨hk, hres⟩ := @scanFree_spec fs 1 0 (scanStart 0) 0 fs.vol.totalClusters 0 0 h hin
    (Nat.zero_add _) (.start Nat.one_pos) rfl fun h0 => absurd rfl h0
  rw [fat32AllocClusters, if_neg Nat.one_ne_zero, show (if 2 ≤ 0 then 0 else 2) = scanStart 0 from rfl]
  generalize scanFree 1 fs.vol.totalClusters (scanStart 0) 0 0 fs = r at hk hres
  obtain ⟨o, fs1⟩ := r
  replace hk : Keeps fs fs1 := hk
  generalize ho : (o, fs1).1 = o' at hres
  obtain rfl : o = o' := ho
  cases hres with
  | failed => exact ⟨fs1, rfl, hk⟩
  | none hno hlt => exact ⟨fs1, if_pos hlt, hk⟩
  | @found j hfirst hj =>
    have hfree : look fs.vol.totalClusters (scanStart 0) j ∈ fs.free :=
      Fs.mem_free.2 ⟨⟨look_ge (scanStart_ge 0) j, look_lt htot j⟩, hfirst.1 0 Nat.one_pos⟩
    rw [hfull] at hfree
    exact absurd hfree (Finset.notMem_empty _)

/-- Other answers make no difference to what is kept. -/
theorem Keeps.noTrace {env : Nat → Answer} (hs : Sound fs) (h : Keeps (fs.withEnv env) fs') : LeavesNoTrace fs fs' := by
  have hframe : Frame fs (fs'.withEnv fs.env) :=
    ⟨h.shape, h.consistent.env fs.env, h.second, h.outside, .refl _⟩
  refine ⟨h.table, fun c _ => ?_⟩
  exact congrFun (hframe.data_eq hs) c

/-- A failure without a trace, whichever of the requests fail. -/
def FailsClean (fs : Fs) (dir : Nat) (name : List UInt8) (attr : Nat) : Prop :=
  ∀ env fs', fat32Create dir name attr (fs.withEnv env) = some (none, fs') → LeavesNoTrace fs fs'

/-- If there is no free cluster, nothing is changed. -/
theorem failsClean_of_full (hs : Sound fs) (htot : 2 < fs.vol.totalClusters) (hfull : fs.free = ∅) :
    FailsClean fs dir name attr := by
  intro env fs' hrun
  have hc : Consistent (fs.withEnv env) := hs.consistent.env env
  rw [fat32Create, bind_run (get_run _)] at hrun
  split at hrun
  · obtain rfl := congrArg Prod.snd (Option.some.inj hrun)
    exact (Keeps.refl hc).noTrace hs
  · rw [bind_run (get_run _)] at hrun
    obtain ⟨r, fs1, hfind, hrun⟩ := bind_inv hrun
    have hk1 := fat32Find_keeps hc hfind
    cases r with
    | some info =>
      obtain rfl := congrArg Prod.snd (Option.some.inj hrun)
      exact hk1.noTrace hs
    | none =>
      have hfree1 : fs1.free = ∅ := by
        rw [← hfull, Fs.free, Fs.free, hk1.shape.totalClusters, hk1.table]
        rfl
      obtain ⟨fs2, ha, hk2⟩ := alloc_of_full hk1.consistent
        (fun c hv => hk1.shape.inTable.2 (hs.table c (hk1.shape.inVolume.1 hv)))
        (by rw [hk1.shape.totalClusters]; exact htot) hfree1
      have hnew : newEntryCluster (dirOrRoot (fs.withEnv env).vol dir) attr fs1 = (0, fs2) := by
        rw [newEntryCluster, ha]
        rfl
      dsimp only at hrun
      rw [bind_run (lift_run hnew)] at hrun
      obtain rfl := congrArg Prod.snd (Option.some.inj hrun)
      exact (hk1.trans hk2).noTrace hs

/-- Every request is refused from some moment on. -/
def refuse : Answer := ⟨false, fun _ => 0⟩

/-- **A cluster is lost** as long as there is one: no memory for the search, which makes it that the entry is
not found, and none for the place either. -/
theorem create_loses (hs : Sound fs) (htot : 2 < fs.vol.totalClusters) (hmounted : fs.vol.mounted = true)
    (hname : name ≠ []) (hfree : 0 < fs.free.card) :
    ∃ env fs', fat32Create dir name attr (fs.withEnv env) = some (none, fs') ∧ fs'.table ≠ fs.table := by
  obtain ⟨new, k, fs1, hnew, htable, ha⟩ := alloc_withEnv hs hfree htot
  obtain ⟨⟨h2, -⟩, h0⟩ := Fs.mem_free.1 hnew
  let later : Nat → Answer := fun n => if n < k then fs.env n else refuse
  let env : Nat → Answer := fun n => n.casesOn refuse later
  have ha := ha later fun n hn => if_pos hn
  have hbad : (later k).ok = false := by
    simp only [later, Nat.lt_irrefl, if_false, refuse]
  -- the state after the allocation, in which nothing more is granted
  generalize hfs2 : fs1.withEnv (fun n => later (n + k)) = fs2 at ha
  have hm : malloc fs2 = (none, fs2.ask.2) := by
    rw [malloc, ← hfs2]
    exact congrArg (·, _) (if_neg (by simp [Fs.withEnv, Fs.ask, hbad]))
  have hlost : fs2.ask.2.table ≠ fs.table := by
    intro heq
    have htab : fs2.ask.2.table = Function.update fs.table new clusterEoc := by rw [← hfs2]; exact htable
    rw [htab] at heq
    have := congrFun heq new
    rw [Function.update_self, h0] at this
    exact absurd this (by decide)
  have hfind : fat32Find (dirOrRoot fs.vol dir) name (fs.withEnv env) = some (none, fs.withEnv later) := rfl
  refine ⟨env, fs2.ask.2, ?_, hlost⟩
  rw [fat32Create, bind_run (get_run _), if_neg (by simp [Fs.withEnv, hmounted, hname]), bind_run (get_run _)]
  rw [show dirOrRoot (fs.withEnv env).vol dir = dirOrRoot fs.vol dir from rfl, bind_run hfind]
  dsimp only
  by_cases hattr : attr &&& attrDirectory = 0
  · have hn : newEntryCluster (dirOrRoot fs.vol dir) attr (fs.withEnv later) = (new, fs2) := by
      rw [newEntryCluster, ha]
      cases new with
      | zero => omega
      | succ m => exact if_pos hattr
    rw [bind_run (lift_run hn), if_neg (by omega), createIn, bind_run (lift_run hm)]
    rfl
  · have hn : newEntryCluster (dirOrRoot fs.vol dir) attr (fs.withEnv later) = (0, fs2.ask.2) := by
      rw [newEntryCluster, ha]
      cases new with
      | zero => omega
      | succ m =>
        simp only [if_neg hattr, initDirectory, hm]
        rfl
    rw [bind_run (lift_run hn)]
    rfl

/-! ## If nothing fails -/

/-- The same for a run in which no request fails. -/
def FailsCleanHere (fs : Fs) (dir : Nat) (name : List UInt8) (attr : Nat) : Prop :=
  ∀ fs', fat32Create dir name attr fs = some (none, fs') → LeavesNoTrace fs fs'

/-- There is room for the entry in its directory, or in one more cluster of it besides the one for the file. -/
def HasRoom (fs : Fs) (ds : List Nat) (name : List UInt8) : Prop :=
  place (wubuLfnBuildEntries name).length (entriesPerCluster fs.vol) fs.data ds ≠ none ∨
    2 ≤ fs.free.card ∧ (wubuLfnBuildEntries name).length < entriesPerCluster fs.vol

/-- Without room for the entry, its cluster is lost. -/
theorem create_noRoom (hs : Sound fs) (hch : Chain fs.vol fs.table (dirOrRoot fs.vol dir) ds) (hne : ds ≠ [])
    (hmounted : fs.vol.mounted = true) (hname : name ≠ []) (hfree : fs.free ≠ ∅)
    (hlook : fs.lookup ds name = none) (hroom : ¬HasRoom fs ds name) :
    ∃ fs', fat32Create dir name attr fs = some (none, fs') ∧ fs'.table ≠ fs.table := by
  rw [HasRoom, not_or, not_not] at hroom
  obtain ⟨hplace, hsmall⟩ := hroom
  have hcard : fs.free.card ≠ 0 := by rwa [Ne, Finset.card_eq_zero]
  obtain ⟨r, fs', hrun, hcreates, hnone⟩ := @fat32Create_ok fs name ds dir attr hs hmounted hch hne hname
  obtain rfl : r = none := hnone.2 ⟨hlook, Or.inr ⟨hplace, by omega⟩⟩
  refine ⟨fs', hrun, fun htable => ?_⟩
  rcases hcreates with ⟨-, -, hfull⟩ | ⟨-, new, d, fs1, hnew, -, -, hg, ds', fs2, hgr, hend⟩
  · exact hcard (hfull rfl)
  · rcases hend with ⟨-, hg'⟩ | ⟨_, _, _, -, hsome, -⟩
    · obtain ⟨-, h0⟩ := Fs.mem_free.1 hnew
      have htaken : fs1.table new = clusterEoc := by rw [hg.table, Function.update_self]
      have hnot : new ∉ ds := fun hmem => hch.used new hmem h0
      have hkept := hgr.table new (by rw [htaken]; decide) hnot
      rw [← hg'.table, htable, h0, htaken] at hkept
      exact absurd hkept (by decide)
    · cases hsome

/-- **When no failure of `fat32_create` leaves a trace**, whichever requests fail, and if none does. -/
theorem createFailsClean_iff (hs : Sound fs) (hch : Chain fs.vol fs.table (dirOrRoot fs.vol dir) ds) (hne : ds ≠ []) :
    (FailsClean fs dir name attr ↔ fs.vol.mounted = false ∨ name = [] ∨ fs.free = ∅) ∧
      (FailsCleanHere fs dir name attr ↔ fs.vol.mounted = false ∨ name = [] ∨ fs.free = ∅ ∨
        fs.lookup ds name ≠ none ∨ HasRoom fs ds name) := by
  have hlast := hch.inVolume _ (List.getLast_mem hne)
  have htot : 2 < fs.vol.totalClusters := hlast.1.trans_lt hlast.2
  have hrefused : fs.vol.mounted = false ∨ name = [] → FailsClean fs dir name attr := by
    intro h env fs' hrun
    rw [fat32Create, bind_run (get_run _),
      if_pos (show (fs.withEnv env).vol.mounted = false ∨ name = [] from h)] at hrun
    obtain rfl := congrArg Prod.snd (Option.some.inj hrun)
    exact (Keeps.refl (hs.consistent.env env)).noTrace hs
  have hclean : fs.vol.mounted = false ∨ name = [] ∨ fs.free = ∅ → FailsClean fs dir name attr := by
    rintro (h | h | h)
    · exact hrefused (Or.inl h)
    · exact hrefused (Or.inr h)
    · exact failsClean_of_full hs htot h
  refine ⟨⟨fun h => ?_, hclean⟩, fun h => ?_, fun h => ?_⟩
  · by_contra hnot
    rw [not_or, not_or, Bool.not_eq_false] at hnot
    obtain ⟨env, fs', hrun, hlost⟩ := @create_loses fs name dir attr hs htot hnot.1 hnot.2.1
      (Finset.card_pos.2 (Finset.nonempty_iff_ne_empty.2 hnot.2.2))
    exact hlost (h env fs' hrun).1
  · by_contra hnot
    rw [not_or, not_or, not_or, not_or, Bool.not_eq_false, not_not] at hnot
    obtain ⟨hmounted, hname, hfree, hlook, hroom⟩ := hnot
    obtain ⟨fs', hrun, hlost⟩ := @create_noRoom fs name ds dir attr hs hch hne hmounted hname hfree hlook hroom
    exact hlost (h fs' hrun).1
  · rcases h with h | h | h | h
    · exact fun fs' hrun => hclean (Or.inl h) fs.env fs' hrun
    · exact fun fs' hrun => hclean (Or.inr (Or.inl h)) fs.env fs' hrun
    · exact fun fs' hrun => hclean (Or.inr (Or.inr h)) fs.env fs' hrun
    · -- it does not fail, unless one of the reasons above applies
      intro fs' hrun
      by_cases href : fs.vol.mounted = false ∨ name = []
      · exact hrefused href fs.env fs' hrun
      rw [not_or, Bool.not_eq_false] at href
      by_cases hfull : fs.free = ∅
      · exact hclean (Or.inr (Or.inr hfull)) fs.env fs' hrun
      obtain ⟨r, fs'', hrun', -, hnone⟩ := @fat32Create_ok fs name ds dir attr hs href.1 hch hne href.2
      rw [hrun] at hrun'
      obtain ⟨rfl, -⟩ := Prod.mk.inj (Option.some.inj hrun')
      obtain ⟨hlook, hfail⟩ := hnone.1 rfl
      obtain ⟨hplace, hsmall⟩ := hfail.resolve_left (mt Finset.card_eq_zero.1 hfull)
      rcases h with h | h | h
      · exact absurd hlook h
      · exact absurd hplace h
      · omega

theorem createFailsClean_iff_hundred : ∃ f m, fat32Format 100 none blankFs = (true, f) ∧ fat32Mount 100 f = (true, m) ∧
      (FailsCleanHere m 0 longFilename 0 ↔ m.vol.mounted = false ∨ longFilename = [] ∨ m.free = ∅ ∨
        m.lookup [m.vol.rootCluster] longFilename ≠ none ∨ HasRoom m [m.vol.rootCluster] longFilename) := by
  obtain ⟨f, m, hf, hm, hempty, -⟩ := blankFs_hundred
  exact ⟨f, m, hf, hm, (@createFailsClean_iff m longFilename _ 0 0 hempty.sound hempty.chain (List.cons_ne_nil _ _)).2⟩

/-- A name of 200 characters. -/
def twoHundred : List UInt8 := List.replicate 200 97

theorem length_twoHundred : (wubuLfnBuildEntries twoHundred).length = 16 := by
  have hlen : twoHundred.length = 200 := List.length_replicate
  have hneeds : needsLfn twoHundred = true := by
    rw [needsLfn, hlen]
    rfl
  rw [wubuLfnBuildEntries, hlen, if_neg (by decide), if_pos hneeds, List.length_map, List.length_reverse,
    List.length_range]
  rfl

/-- **A name that no directory cluster has room for**, on a volume of 100 sectors that has nothing on it:
`fat32_create` fails, and the clusters it has taken are not given back. -/
theorem create_twoHundred :
    ∃ f m, fat32Format 100 none blankFs = (true, f) ∧ fat32Mount 100 f = (true, m) ∧ NoErrors m ∧
      ¬FailsCleanHere m 0 twoHundred 0 ∧ ¬FailsClean m 0 twoHundred 0 := by
  obtain ⟨f, m, hf, hm, hempty, hentries, hcard⟩ := blankFs_hundred
  have hnoroom : ¬HasRoom m [m.vol.rootCluster] twoHundred := by
    rw [HasRoom, not_or, length_twoHundred, hentries, not_not, place, hempty.data, findRun_zero.2 (by decide)]
    exact ⟨rfl, fun h => absurd h.2 (by decide)⟩
  have hname : twoHundred ≠ [] := fun h => by
    have := congrArg List.length h
    rw [twoHundred, List.length_replicate] at this
    cases this
  have hlook : m.lookup [m.vol.rootCluster] twoHundred = none := lookup_zero hempty.data noLfn
  obtain ⟨fs', hrun, hlost⟩ := @create_noRoom m twoHundred _ 0 0 hempty.sound hempty.chain (List.cons_ne_nil _ _)
    hempty.mounted hname (Finset.card_pos.1 hcard).ne_empty hlook hnoroom
  exact ⟨f, m, hf, hm, hempty.sound.noErrors, fun h => hlost (h fs' hrun).1, fun h => hlost (h m.env fs' hrun).1⟩

end WuBuOS.Fat32
