import WuBuOS.Kernel.Fat32.Chain
import WuBuOS.Lib.Rows
import Mathlib.Tactic.IntervalCases

/-!
# Allocating clusters in a row

`fat32_alloc_clusters` looks at as many clusters as the volume has numbers, from the hint on, and goes on
at cluster 2 where the volume ends.  It takes the first `count` free ones that it has looked at in a row
(`scanFree_spec`).  But clusters that are looked at in a row need not be in a row: the last cluster of the volume is
followed by cluster 2, and then the chain is linked through clusters that do not exist.  And a row of
free clusters that the hint is in the middle of is looked at in two pieces.

So an allocation is right exactly if neither happens (`allocRight_iff`).
-/

namespace WuBuOS.Fat32

open Bytes Rows

variable {total start : Nat}

variable {fs fs' : Fs} {count hint c d j n first found : Nat}

/-! ## What is looked at -/

/-- Where the scan begins. -/
def scanStart (hint : Nat) : Nat := if 2 ≤ hint then hint else 2

/-- The clusters that are looked at, one after the other. -/
def look (total start : Nat) : Nat → Nat
  | 0 => if total ≤ start then 2 else start
  | j + 1 => if total ≤ look total start j + 1 then 2 else look total start j + 1

/-- The scan finds the cluster free that it looks at. -/
def LooksFree (fs : Fs) (hint j : Nat) : Prop :=
  fs.table (look fs.vol.totalClusters (scanStart hint) j) = clusterFree

instance (fs : Fs) (hint : Nat) : DecidablePred (LooksFree fs hint) := fun _ => instDecidableEqNat _ _

/-- So many free clusters of the volume, in a row. -/
def FreeRow (fs : Fs) (count c : Nat) : Prop :=
  ∀ i < count, InVolume fs.vol (c + i) ∧ fs.table (c + i) = clusterFree

/-- **An allocation does what it should**, whichever of its requests fail: what it returns is a row of
clusters of the volume that were free and are now a chain, and no other entry has changed.  If it returns
0, and no request has failed, then no entry has changed and there is no such row. -/
structure AllocRight (fs : Fs) (count hint : Nat) : Prop where
  allocated : ∀ env first fs', fat32AllocClusters count hint { fs with env := env } = (first, fs') →
    first ≠ 0 → FreeRow fs count first ∧
      (∀ i < count, fs'.table (first + i) = if i + 1 = count then clusterEoc else first + i + 1) ∧
      ∀ d, InTable fs.vol d → d < first ∨ first + count ≤ d → fs'.entry d = fs.entry d
  refused : ∀ env fs', (∀ n, (env n).ok = true) →
    fat32AllocClusters count hint { fs with env := env } = (0, fs') →
      (∀ d, InTable fs.vol d → fs'.entry d = fs.entry d) ∧ ∀ c, ¬FreeRow fs count c

theorem scanStart_ge (hint : Nat) : 2 ≤ scanStart hint := by
  rw [scanStart]
  split
  · assumption
  · exact Nat.le_refl 2

theorem look_ge (h : 2 ≤ start) (j : Nat) : 2 ≤ look total start j := by
  induction j with
  | zero =>
    rw [look]
    split
    · exact Nat.le_refl 2
    · exact h
  | succ j ih =>
    rw [look]
    split
    · exact Nat.le_refl 2
    · exact Nat.le_succ_of_le ih

theorem look_lt (h : 2 < total) (j : Nat) : look total start j < total := by
  cases j with
  | zero =>
    rw [look]
    split <;> omega
  | succ j =>
    rw [look]
    split <;> omega

/-- Without clusters the scan looks at cluster 2. -/
theorem look_eq_two (h : total ≤ 2) (hs : 2 ≤ start) (j : Nat) : look total start j = 2 := by
  have hge := @look_ge total start hs
  cases j with
  | zero => rw [look, if_pos (h.trans hs)]
  | succ j =>
    have := hge j
    rw [look, if_pos (by omega)]

/-- Short of the end of the volume the clusters are in a row. -/
theorem look_add {total start i : Nat} (hi : look total start j + i < total) :
    look total start (j + i) = look total start j + i := by
  induction i with
  | zero => rfl
  | succ i ih =>
    rw [← Nat.add_assoc, look, ih (by omega), if_neg (by omega), Nat.add_assoc]

/-- Behind the end of the volume comes cluster 2. -/
theorem look_wrap (h : look total start 0 < total) : look total start (total - look total start 0) = 2 := by
  obtain ⟨k, hk⟩ : ∃ k, total - look total start 0 = k + 1 := ⟨total - look total start 0 - 1, by omega⟩
  have hlast := @look_add 0 total start k (by omega)
  rw [Nat.zero_add] at hlast
  rw [hk, look, hlast, if_pos (by omega)]

/-! ## The scan -/

theorem scanFree_touches : Touches fs (scanFree count n c first found fs).2 := by
  induction n generalizing c first found fs with
  | zero => exact .refl fs
  | succ n ih =>
    rw [scanFree]
    dsimp only
    have ht := fatReadEntry_touches (if fs.vol.totalClusters ≤ c then 2 else c) fs
    split
    · rename_i hr
      rwa [hr] at ht
    · rename_i hr
      rw [hr] at ht
      split
      · split
        · exact ht
        · exact ht.trans ih
      · exact ht.trans ih

/-- What the scan finds in a volume whose table is in this state. -/
inductive ScanResult (fs : Fs) (count hint : Nat) : Option (Nat × Nat) → Prop
  | failed (h : ¬NoErrors fs) : ScanResult fs count hint none
  | found {j : Nat} (h : FirstRow (LooksFree fs hint) count j)
      (hj : j + count ≤ fs.vol.totalClusters) : ScanResult fs count hint
        (some (look fs.vol.totalClusters (scanStart hint) j, count))
  | none {first found : Nat} (h : ∀ j, j + count ≤ fs.vol.totalClusters → ¬Row (LooksFree fs hint) count j)
      (hlt : found < count) : ScanResult fs count hint (some (first, found))

theorem Keeps.looksFree (hk : Keeps fs fs') : LooksFree fs' hint = LooksFree fs hint := by
  funext j
  rw [LooksFree, LooksFree, hk.table, hk.shape.totalClusters]

theorem ScanResult.of_keeps {r : Option (Nat × Nat)} (h : ScanResult fs' count hint r)
    (hk : Keeps fs fs') : ScanResult fs count hint r := by
  cases h with
  | failed h => exact .failed fun he => h (hk.noErrors he)
  | found h hj =>
    rw [hk.looksFree] at h
    rw [hk.shape.totalClusters] at hj ⊢
    exact .found h hj
  | none h hlt =>
    rw [hk.looksFree, hk.shape.totalClusters] at h
    exact .none h hlt

/-- **The scan finds the first free clusters that it looks at in a row.** -/
theorem scanFree_spec (h : Consistent fs) (hin : ∀ j, InTable fs.vol (look fs.vol.totalClusters (scanStart hint) j))
    (hj : j + n = fs.vol.totalClusters) (hs : Streak (LooksFree fs hint) count j found)
    (hc : (if fs.vol.totalClusters ≤ c then 2 else c) = look fs.vol.totalClusters (scanStart hint) j)
    (hfirst : found ≠ 0 → first = look fs.vol.totalClusters (scanStart hint) (j - found)) :
    Keeps fs (scanFree count n c first found fs).2 ∧
      ScanResult fs count hint (scanFree count n c first found fs).1 := by
  induction n generalizing c first found fs j with
  | zero =>
    refine ⟨.refl h, .none (fun i hi => hs.none i (by omega)) hs.short⟩
  | succ n ih =>
    obtain ⟨hk, hr⟩ := fatReadEntry_spec h (hin j)
    have hok := fun he => fatReadEntry_ok h he (hin j)
    have htab := Fs.table_eq (hin j)
    rw [scanFree]
    rw [hc]
    generalize fatReadEntry (look fs.vol.totalClusters (scanStart hint) j) fs = r at hk hr hok
    obtain ⟨o, fs1⟩ := r
    replace hk : Keeps fs fs1 := hk
    cases o with
    | none => exact ⟨hk, .failed fun he => absurd (hok he) (Option.some_ne_none _).symm⟩
    | some e =>
      obtain rfl : e = fs.table (look fs.vol.totalClusters (scanStart hint) j) := by
        rw [htab]
        simpa using hr
      -- the rest of the scan, in the state after the look
      have hrest : ∀ found first, Streak (LooksFree fs hint) count (j + 1) found →
          (found ≠ 0 → first = look fs.vol.totalClusters (scanStart hint) (j + 1 - found)) →
          Keeps fs (scanFree count n (look fs.vol.totalClusters (scanStart hint) j + 1) first found fs1).2 ∧
            ScanResult fs count hint
              (scanFree count n (look fs.vol.totalClusters (scanStart hint) j + 1) first found fs1).1 := by
        intro found first hs hfirst
        rw [← hk.shape.totalClusters] at hj hfirst ⊢
        obtain ⟨hk', hr'⟩ := @ih fs1 _ (j + 1) first found hk.consistent
          (fun i => by rw [hk.shape.totalClusters, hk.shape.inTable]; exact hin i)
          (by omega) (by rw [hk.looksFree]; exact hs) rfl hfirst
        exact ⟨hk.trans hk', hr'.of_keeps hk⟩
      dsimp only
      split
      · rename_i hfree
        have hplace : (if found = 0 then look fs.vol.totalClusters (scanStart hint) j else first) =
            look fs.vol.totalClusters (scanStart hint) (j - found) := by
          split
          · rename_i h0
            rw [h0]
            rfl
          · exact hfirst ‹_›
        rw [hplace]
        split
        · rename_i hcount
          have hfound := hs.found hfree hcount
          have hle := hs.le
          have hshort := hs.short
          obtain rfl : count = found + 1 := by omega
          exact ⟨hk, .found hfound (by omega)⟩
        · rename_i hcount
          exact hrest (found + 1) _ (hs.hit hfree (by omega)) fun _ => by rw [Nat.add_sub_add_right]
      · rename_i hused
        exact hrest 0 0 (hs.miss hused) fun h0 => absurd rfl h0

/-! ## Linking -/

/-- Linking does not fail by itself, wherever it goes. -/
theorem linkRun_fst (he : NoErrors fs) : (linkRun first count n fs).1 = true := by
  induction n generalizing fs with
  | zero => rfl
  | succ n ih =>
    rw [linkRun]
    generalize (first + (count - (n + 1))) % 2 ^ 32 = c
    have hw := fatWriteEntry_fst he c (if n = 0 then clusterEoc else c + 1)
    have ht := fatWriteEntry_touches c (if n = 0 then clusterEoc else c + 1) fs
    generalize fatWriteEntry c (if n = 0 then clusterEoc else c + 1) fs = r at hw ht
    obtain ⟨ok, fs1⟩ := r
    obtain rfl : ok = true := hw
    exact ih (ht.noErrors he)

theorem linkRun_touches : Touches fs (linkRun first count n fs).2 := by
  induction n generalizing fs with
  | zero => exact .refl fs
  | succ n ih =>
    rw [linkRun]
    have ht := fatWriteEntry_touches ((first + (count - (n + 1))) % 2 ^ 32)
      (if n = 0 then clusterEoc else (first + (count - (n + 1))) % 2 ^ 32 + 1) fs
    split
    · rename_i hw
      rwa [hw] at ht
    · rename_i hw
      rw [hw] at ht
      exact ht.trans ih

/-- The entry of a cluster after the run from `first` to `last` has been linked. -/
def linkedEntry (old first last d : Nat) : Nat :=
  if first ≤ d ∧ d < last then mergeEntry old (if d + 1 = last then clusterEoc else d + 1) else old

/-- **A run of clusters is linked**, or a request has failed. -/
theorem linkRun_spec (h : Consistent fs) (hin : ∀ i < count, InTable fs.vol (first + i))
    (hlt : first + count ≤ 2 ^ 32) (hn : n ≤ count) (hr : linkRun first count n fs = (true, fs')) :
    Frame fs fs' ∧ ∀ d, InTable fs.vol d →
      fs'.entry d = linkedEntry (fs.entry d) (first + (count - n)) (first + count) d := by
  induction n generalizing fs with
  | zero =>
    obtain rfl := congrArg Prod.snd hr
    refine ⟨(Keeps.refl h).toFrame, fun d _ => ?_⟩
    rw [linkedEntry, if_neg (by omega)]
    rfl
  | succ n ih =>
    rw [linkRun] at hr
    rw [Nat.mod_eq_of_lt (show first + (count - (n + 1)) < 2 ^ 32 by omega)] at hr
    have hc := hin (count - (n + 1)) (by omega)
    generalize hcc : first + (count - (n + 1)) = c at hr hc
    have hspec := fatWriteEntry_spec h hc (if n = 0 then clusterEoc else c + 1)
    split at hr
    · exact Bool.noConfusion (Prod.mk.inj hr).1
    · rename_i fs1 hw
      rw [hw] at hspec
      obtain ⟨-, hst⟩ := hspec.resolve_left fun hf => Bool.noConfusion hf.1
      obtain ⟨hf, hentry⟩ := ih hst.consistent (fun i hi => hst.shape.inTable.2 (hin i hi)) (by omega) hr
      refine ⟨hst.toFrame.trans hf, fun d hd => ?_⟩
      rw [hentry d (hst.shape.inTable.2 hd), hst.entry d hd, linkedEntry, linkedEntry]
      by_cases hdc : d = c
      · subst hdc
        rw [if_pos rfl, if_neg (show ¬(first + (count - n) ≤ d ∧ d < first + count) by omega),
          if_pos (show d ≤ d ∧ d < first + count by omega),
          if_congr (show n = 0 ↔ d + 1 = first + count by omega) rfl rfl]
      · rw [if_neg hdc]
        exact if_congr (by omega) rfl rfl

/-! ## When an allocation is right -/

/-- **Neither goes wrong**: the clusters that are found do not go beyond the end of the volume, and if
none are found there is no row of free clusters either that goes beyond the place where the scan began, and
the two clusters there. -/
structure AllocFits (fs : Fs) (count hint : Nat) : Prop where
  ends : ∀ j, FirstRow (LooksFree fs hint) count j → j + count ≤ fs.vol.totalClusters →
    look fs.vol.totalClusters (scanStart hint) j + count ≤ fs.vol.totalClusters
  whole : (∀ j, j + count ≤ fs.vol.totalClusters → ¬Row (LooksFree fs hint) count j) →
    ∀ c, c < look fs.vol.totalClusters (scanStart hint) 0 →
      look fs.vol.totalClusters (scanStart hint) 0 + 2 < c + count → ¬FreeRow fs count c

/-- What is found short of the end of the volume is a row of free clusters. -/
theorem freeRow_of_looks (h : Row (LooksFree fs hint) count j)
    (hend : look fs.vol.totalClusters (scanStart hint) j + count ≤ fs.vol.totalClusters) :
    FreeRow fs count (look fs.vol.totalClusters (scanStart hint) j) := fun i hi => by
  have hge := @look_ge fs.vol.totalClusters _ (scanStart_ge hint) j
  have hfree := h i hi
  rw [LooksFree, look_add (by omega)] at hfree
  exact ⟨⟨by omega, by omega⟩, hfree⟩

/-- Any other row of free clusters is looked at as a whole. -/
theorem FreeRow.looked (h : FreeRow fs count c) (hcount : 0 < count)
    (hc : look fs.vol.totalClusters (scanStart hint) 0 ≤ c ∨
      c + count ≤ look fs.vol.totalClusters (scanStart hint) 0 + 2) :
    ∃ j, j + count ≤ fs.vol.totalClusters ∧ Row (LooksFree fs hint) count j := by
  obtain ⟨⟨h2, hN⟩, -⟩ := h 0 hcount
  have hend := (h (count - 1) (by omega)).1.2
  have hs := @look_lt fs.vol.totalClusters (scanStart hint) (by omega) 0
  have hrow : ∀ j, look fs.vol.totalClusters (scanStart hint) j = c → Row (LooksFree fs hint) count j :=
    fun j hj i hi => by
      rw [LooksFree, look_add (by omega), hj]
      exact (h i hi).2
  by_cases hle : look fs.vol.totalClusters (scanStart hint) 0 ≤ c
  · refine ⟨c - look fs.vol.totalClusters (scanStart hint) 0, by omega, hrow _ ?_⟩
    have := @look_add 0 fs.vol.totalClusters (scanStart hint)
      (c - look fs.vol.totalClusters (scanStart hint) 0) (by omega)
    rw [Nat.zero_add] at this
    omega
  · refine ⟨fs.vol.totalClusters - look fs.vol.totalClusters (scanStart hint) 0 + (c - 2), by omega,
      hrow _ ?_⟩
    have hwrap := look_wrap hs
    rw [look_add (by omega), hwrap]
    omega

/-- **What an allocation does**: it links what it has found, or a request has failed, or it has found
nothing. -/
theorem fat32AllocClusters_looks (h : Consistent fs) (hcount : 0 < count)
    (hin : ∀ j, InTable fs.vol (look fs.vol.totalClusters (scanStart hint) j)) :
    (∃ j fs1 fs2, FirstRow (LooksFree fs hint) count j ∧ j + count ≤ fs.vol.totalClusters ∧
      Keeps fs fs1 ∧ linkRun (look fs.vol.totalClusters (scanStart hint) j) count count fs1 = (true, fs2) ∧
      fs2.vol.freeClusters = fs.vol.freeClusters ∧
      fat32AllocClusters count hint fs = (look fs.vol.totalClusters (scanStart hint) j,
        { fs2 with vol :=
          tookClusters (look fs.vol.totalClusters (scanStart hint) j) count fs2.vol })) ∨
    (¬NoErrors fs ∧ (fat32AllocClusters count hint fs).1 = 0) ∨
    ((∀ j, j + count ≤ fs.vol.totalClusters → ¬Row (LooksFree fs hint) count j) ∧
      (fat32AllocClusters count hint fs).1 = 0 ∧ Keeps fs (fat32AllocClusters count hint fs).2 ∧
      (fat32AllocClusters count hint fs).2.vol.freeClusters = fs.vol.freeClusters) := by
  obtain ⟨hk, hres⟩ := @scanFree_spec fs count hint (scanStart hint) 0 fs.vol.totalClusters 0 0 h hin
    (Nat.zero_add _) (.start hcount) rfl fun h0 => absurd rfl h0
  rw [fat32AllocClusters, if_neg (Nat.ne_of_gt hcount)]
  rw [show (if 2 ≤ hint then hint else 2) = scanStart hint from rfl]
  have hcount1 :=
    (@scanFree_touches fs count (scanStart hint) fs.vol.totalClusters 0 0).freeClusters
  generalize scanFree count fs.vol.totalClusters (scanStart hint) 0 0 fs = r at hk hres hcount1
  obtain ⟨o, fs1⟩ := r
  replace hk : Keeps fs fs1 := hk
  generalize ho : (o, fs1).1 = o' at hres
  obtain rfl : o = o' := ho
  cases hres with
  | failed he => exact Or.inr (Or.inl ⟨he, rfl⟩)
  | none hno hlt =>
    simp only [if_pos hlt]
    exact Or.inr (Or.inr ⟨hno, trivial, hk, hcount1⟩)
  | @found j hfirst hj =>
    have hlinked := fun he : NoErrors fs => @linkRun_fst fs1 count count
      (look fs.vol.totalClusters (scanStart hint) j) (hk.noErrors he)
    have hcount2 := (@linkRun_touches fs1 count count
      (look fs.vol.totalClusters (scanStart hint) j)).freeClusters
    simp only [Nat.lt_irrefl, if_false]
    generalize hl : linkRun (look fs.vol.totalClusters (scanStart hint) j) count count fs1 = l
      at hlinked hcount2 ⊢
    obtain ⟨ok, fs2⟩ := l
    cases ok with
    | true => exact Or.inl ⟨j, fs1, fs2, hfirst, hj, hk, hl, hcount2.trans hcount1, rfl⟩
    | false => exact Or.inr (Or.inl ⟨fun he => Bool.noConfusion (hlinked he), rfl⟩)

/-- **What is linked**, short of the end of the volume: a row of free clusters, which are a chain then. -/
theorem linked_right {fs1 fs2 : Fs} (htable : ∀ c, InVolume fs.vol c → InTable fs.vol c)
    (htot : fs.vol.totalClusters ≤ clusterEoc) (hrow : Row (LooksFree fs hint) count j)
    (hend : look fs.vol.totalClusters (scanStart hint) j + count ≤ fs.vol.totalClusters)
    (hk : Keeps fs fs1)
    (hl : linkRun (look fs.vol.totalClusters (scanStart hint) j) count count fs1 = (true, fs2)) :
    FreeRow fs count (look fs.vol.totalClusters (scanStart hint) j) ∧ Frame fs fs2 ∧
      (∀ i < count, fs2.table (look fs.vol.totalClusters (scanStart hint) j + i) =
        if i + 1 = count then clusterEoc else look fs.vol.totalClusters (scanStart hint) j + i + 1) ∧
      ∀ d, InTable fs.vol d → d < look fs.vol.totalClusters (scanStart hint) j ∨
        look fs.vol.totalClusters (scanStart hint) j + count ≤ d → fs2.entry d = fs.entry d := by
  have hfree := freeRow_of_looks hrow hend
  generalize look fs.vol.totalClusters (scanStart hint) j = first at hend hfree hl
  have htab := fun i hi => htable (first + i) (hfree i hi).1
  obtain ⟨hframe, hentry⟩ := linkRun_spec hk.consistent
    (fun i hi => hk.shape.inTable.2 (htab i hi)) (hend.trans (htot.trans (by decide)))
    (Nat.le_refl count) hl
  rw [Nat.sub_self, Nat.add_zero] at hentry
  have hentry' : ∀ d, InTable fs.vol d →
      fs2.entry d = linkedEntry (fs.entry d) first (first + count) d := fun d hd => by
    rw [hentry d (hk.shape.inTable.2 hd), hk.entry d hd]
  refine ⟨hfree, hk.toFrame.trans hframe, fun i hi => ?_, fun d hd hout => ?_⟩
  · have hin2 := (hk.shape.trans hframe.shape).inTable.2 (htab i hi)
    refine (Fs.table_eq hin2).trans ?_
    have hlow : ∀ v, v < 2 ^ 28 → low28 (mergeEntry (fs.entry (first + i)) v) = v := fun v hv => by
      rw [low28_mergeEntry, low28_of_lt hv]
    have hval := hentry' _ (htab i hi)
    rw [linkedEntry, if_pos (by omega)] at hval
    refine (congrArg low28 hval).trans ((hlow _ ?_).trans ?_)
    · split
      · decide
      · have := hend.trans htot
        rw [clusterEoc] at this
        omega
    · exact if_congr (by omega) rfl rfl
  · rw [hentry' d hd, linkedEntry, if_neg (by omega)]

/-- What is looked at has an entry in the table. -/
theorem look_inTable (htable : ∀ c, InVolume fs.vol c → InTable fs.vol c)
    (hfat : 0 < fs.vol.sectorsPerFat) (hint j : Nat) :
    InTable fs.vol (look fs.vol.totalClusters (scanStart hint) j) := by
  by_cases hN : 2 < fs.vol.totalClusters
  · exact htable _ ⟨look_ge (scanStart_ge hint) j, look_lt hN j⟩
  · rw [look_eq_two (Nat.not_lt.1 hN) (scanStart_ge hint)]
    exact hfat

/-- **An allocation is right exactly if the clusters it takes do not go beyond the end of the volume,
and no row of free clusters is missed.**  Whatever is in the table, for every hint. -/
theorem allocRight_iff (h : Consistent fs) (htable : ∀ c, InVolume fs.vol c → InTable fs.vol c)
    (hfat : 0 < fs.vol.sectorsPerFat) (htot : fs.vol.totalClusters ≤ clusterEoc) (hcount : 0 < count) :
    AllocRight fs count hint ↔ AllocFits fs count hint := by
  have hge := fun j => @look_ge fs.vol.totalClusters _ (scanStart_ge hint) j
  have hcases := fun env => @fat32AllocClusters_looks { fs with env := env } count hint (h.env env) hcount
    (look_inTable htable hfat hint)
  constructor
  · intro hr
    constructor
    · intro j hfirst hj
      rcases hcases fun _ => ⟨true, fun _ => 0⟩ with ⟨j', fs₁, fs₂, hfirst', hj', -, -, -, ha⟩ | ⟨he, -⟩ | ⟨hno, -⟩
      · -- the first row is the one that has been taken
        obtain rfl : j' = j := by
          rcases Nat.lt_trichotomy j' j with hlt | heq | hgt
          · exact absurd hfirst'.1 (hfirst.2 j' hlt)
          · exact heq
          · exact absurd hfirst.1 (hfirst'.2 j hgt)
        obtain ⟨hrow, -⟩ := hr.allocated _ _ _ ha (by have := hge j'; dsimp only; omega)
        have := (hrow (count - 1) (by omega)).1.2
        dsimp only at this
        omega
      · exact absurd (fun _ => rfl) he
      · exact absurd hfirst.1 (hno j hj)
    · intro hno c _ _
      rcases hcases fun _ => ⟨true, fun _ => 0⟩ with ⟨j, -, -, hfirst, hj, -⟩ | ⟨he, -⟩ | ⟨-, h0, -⟩
      · exact absurd hfirst.1 (hno j hj)
      · exact absurd (fun _ => rfl) he
      · exact (hr.refused _ _ (fun _ => rfl) (Prod.ext h0 rfl)).2 c
  · intro hf
    constructor
    · intro env first fs' ha hne
      rcases hcases env with ⟨j, fs₁, fs₂, hfirst, hj, hk, hl, -, ha'⟩ | ⟨-, h0⟩ | ⟨-, h0, -⟩
      · obtain ⟨rfl, rfl⟩ := Prod.mk.inj (ha.symm.trans ha')
        obtain ⟨hfree, -, htab, hother⟩ :=
          @linked_right { fs with env := env } count hint j fs₁ fs₂ htable htot hfirst.1
            (hf.ends j hfirst hj) hk hl
        exact ⟨hfree, htab, hother⟩
      · rw [ha] at h0
        exact absurd h0 hne
      · rw [ha] at h0
        exact absurd h0 hne
    · intro env fs' he ha
      rcases hcases env with ⟨j, fs₁, fs₂, -, -, -, -, -, ha'⟩ | ⟨hno, -⟩ | ⟨hno, -, hk, -⟩
      · have h0 := congrArg Prod.fst (ha.symm.trans ha')
        have := hge j
        dsimp only at h0
        omega
      · exact absurd he hno
      · rw [ha] at hk
        refine ⟨hk.entry, fun c hfree => ?_⟩
        by_cases hc : look fs.vol.totalClusters (scanStart hint) 0 ≤ c ∨
            c + count ≤ look fs.vol.totalClusters (scanStart hint) 0 + 2
        · obtain ⟨j, hj, hrow⟩ := hfree.looked hcount hc
          exact hno j hj hrow
        · obtain ⟨hlt, hend⟩ := not_or.1 hc
          exact hf.whole hno c (Nat.not_le.1 hlt) (Nat.not_le.1 hend) hfree

theorem allocRight_iff_two : ∃ m, fat32Mount 5 tinyFs = (true, m) ∧ m.vol.totalClusters = 4 ∧ AllocRight m 2 0 := by
  have hm : fat32Mount 5 tinyFs = (true, (fat32Mount 5 tinyFs).2) := Prod.ext (by decide) rfl
  generalize hmm : (fat32Mount 5 tinyFs).2 = m at hm
  have htot : m.vol.totalClusters = 4 := by rw [← hmm]; decide
  have hfat : m.vol.sectorsPerFat = 1 := by rw [← hmm]; decide
  have hrow : Row (LooksFree m 0) 2 0 := by
    rw [← hmm]
    intro i hi
    interval_cases i <;> decide
  refine ⟨m, hm, htot, (allocRight_iff (fresh_of_mount hm).consistent (fun c hc => ?_)
    (by rw [hfat]; decide) (by rw [htot]; decide) (by decide)).2 ⟨fun j hj _ => ?_, fun hno => ?_⟩⟩
  · have := hc.2
    rw [htot] at this
    rw [InTable, hfat]
    exact Nat.div_lt_of_lt_mul (this.trans (by decide))
  · obtain rfl : j = 0 := Nat.eq_zero_of_not_pos fun hpos => hj.2 0 hpos hrow
    rw [htot]
    decide
  · exact absurd hrow (hno 0 (by rw [htot]; decide))

/-- **Beyond the end of the volume.**  The volume has the clusters 2 and 3, and both are free.  Three
clusters are asked for; the scan looks at 2, 3 and again at 2, and what is returned is a chain of 2, 3
and 4. -/
theorem alloc_beyond_end : ∃ m, fat32Mount 5 tinyFs = (true, m) ∧ m.vol.totalClusters = 4 ∧
      (fat32AllocClusters 3 0 m).1 = 2 ∧ ¬AllocRight m 3 0 := by
  have hm : fat32Mount 5 tinyFs = (true, (fat32Mount 5 tinyFs).2) := Prod.ext (by decide) rfl
  have htot : (fat32Mount 5 tinyFs).2.vol.totalClusters = 4 := by decide
  have ha : (fat32AllocClusters 3 0 (fat32Mount 5 tinyFs).2).1 = 2 := by decide
  generalize (fat32Mount 5 tinyFs).2 = m at hm htot ha
  refine ⟨m, hm, htot, ha, fun hr => ?_⟩
  have hlast := ((hr.allocated m.env 2 _ (Prod.ext ha rfl) (by decide)).1 2 (by decide)).1.2
  rw [htot] at hlast
  exact absurd hlast (by decide)

end WuBuOS.Fat32
