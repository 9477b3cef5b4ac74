import WuBuOS.Kernel.Fat32.Mount
import WuBuOS.Kernel.Fat32.Stored

/-!
# Appending to a file

A file can be opened at its end in two ways: with mode `"a"`, and with mode `"rw"` and a `fat32_seek`
to the end.  Both set the position to the size of the file, and both set the current cluster by walking
along the chain, but not in the same way: the first walks to the last cluster, the second to the one
that the position is in, or to the last one if there is none.

So they are right exactly if the cluster they find is the one that the position is in: `AtEnd.Lands`.
If the size of a file is a multiple of the cluster size, there is in general no such cluster yet, and
what is written goes to the beginning of the last one, over what was there.  If the file has no
cluster at all, one is allocated, but `fat32_close` does not store it in the directory.
-/

namespace WuBuOS.Fat32

open Bytes

/-- The two ways to open a file at its end. -/
inductive AtEnd
  /-- `fat32_open` with mode `"a"`. -/
  | append
  /-- `fat32_open` with mode `"rw"`, and `fat32_seek` to the end. -/
  | seek
  deriving DecidableEq, Repr

/-- Open a file at its end. -/
def openAtEnd (way : AtEnd) (dir : Nat) (name : List UInt8) : M (Option File) :=
  match way with
  | .append => fat32Open dir name .a
  | .seek => do
    match ← fat32Open dir name .rw with
    | none => return none
    | some fp => lift (fat32Seek fp 0 2)

/-- Open a file at its end, write to it, and close it; the number of bytes written. -/
def appendFile (way : AtEnd) (dir : Nat) (name : List UInt8) (src : List UInt8) : M (Option Nat) := do
  match ← openAtEnd way dir name with
  | none => return none
  | some fp =>
    let r ← fat32Write fp src
    modify (fat32Close r.2)
    return some r.1

/-- Appending does what it should: every byte is written, and what can be read of the file afterwards is
what could be read before, and then these bytes. -/
def Appends (fs : Fs) (way : AtEnd) (dir : Nat) (name : List UInt8) (src : List UInt8) : Prop :=
  ∃ old fs₁ fs₂ fs₃, readFile dir name fs = some (some old, fs₁) ∧
    appendFile way dir name src fs = some (some src.length, fs₂) ∧
    readFile dir name fs₂ = some (some (old ++ src), fs₃)

/-- The number of the cluster that is found, in a chain of so many clusters. -/
def AtEnd.index (way : AtEnd) (clusters size perCluster : Nat) : Nat :=
  match way with
  | .append => clusters - 1
  | .seek => min (size / perCluster) (clusters - 1)

/-- **The cluster that is found is the one that the end of the file is in**: for `"a"`, the chain has
that cluster and none behind it; for a seek, it has that cluster. -/
def AtEnd.Lands (way : AtEnd) (clusters size perCluster : Nat) : Prop :=
  match way with
  | .append => clusters = size / perCluster + 1
  | .seek => size < clusters * perCluster

variable {fs fs' : Fs} {dir : Nat} {name : List UInt8} {ds cs cs' : List Nat} {info : FileInfo}
  {way : AtEnd} {src : List UInt8}

theorem AtEnd.lands_iff {k size n : Nat} (hn : 0 < n) : way.Lands k size n ↔ k ≠ 0 ∧ way.index k size n = size / n := by
  cases way with
  | append =>
    show k = size / n + 1 ↔ k ≠ 0 ∧ k - 1 = size / n
    generalize size / n = m
    omega
  | seek =>
    show size < k * n ↔ k ≠ 0 ∧ min (size / n) (k - 1) = size / n
    rw [← Nat.div_lt_iff_lt_mul hn]
    generalize size / n = m
    omega

/-- The handle on a file that has been opened at its end. -/
def atEnd (info : FileInfo) (cluster : Nat) : File :=
  { openInfo info info.fileSize true with pos := info.fileSize, currentCluster := cluster }

theorem getLastD_eq_getD (l : List Nat) : l.getLastD 0 = l.getD (l.length - 1) 0 := by
  rw [List.getLastD_eq_getLast?, List.getLast?_eq_getElem?, List.getD_eq_getElem?_getD]

theorem fat32Seek_end {fp : File} {c : Nat}
    (h : seekLoop (fp.fileSize / fs.vol.bytesPerCluster) fp.firstCluster fs = (c, fs')) :
    fat32Seek fp 0 2 fs = (some { fp with pos := fp.fileSize, currentCluster := c }, fs') := by
  have hend : ((fp.fileSize : Int) + 0).toNat = fp.fileSize := by simp
  simp only [fat32Seek, seekOrigin, hend, h]
  rw [if_neg (by omega)]

/-- **Where a file is opened at its end.** -/
theorem IsFile.openAtEnd (h : IsFile fs dir name ds info cs) (way : AtEnd) : ∃ fs', Fat32.openAtEnd way dir name fs =
        some (some (atEnd info
          (cs.getD (way.index cs.length info.fileSize fs.vol.bytesPerCluster) 0)), fs') ∧
      Goes fs fs' fs.table fs.data := by
  obtain ⟨fs1, hf, hg1⟩ := h.find
  have h1 := h.of_goes hg1
  cases way with
  | append =>
    obtain ⟨fs2, hl, hg2⟩ := lastClusterLoop_ok h1.sound h1.chain (h1.chain.length_lt h1.sound)
    refine ⟨fs2, ?_, hg1.on hg2⟩
    rw [Fat32.openAtEnd, fat32Open, bind_run (get_run _), if_neg (by rw [h.mounted]; decide),
      bind_run (get_run _), bind_run hf]
    show openAppend info fs1 = _
    rw [openAppend, bind_run hl, getLastD_eq_getD]
    rfl
  | seek =>
    obtain ⟨fs2, hl, hg2⟩ := seekLoop_ok h1.sound h1.chain (info.fileSize / fs1.vol.bytesPerCluster)
    refine ⟨fs2, ?_, hg1.on hg2⟩
    have hrw : fat32Open dir name .rw fs = some (some (openInfo info info.fileSize true), fs1) := by
      rw [fat32Open, bind_run (get_run _), if_neg (by rw [h.mounted]; decide), bind_run (get_run _), bind_run hf]
      rfl
    rw [Fat32.openAtEnd, bind_run hrw]
    refine lift_run ((fat32Seek_end hl).trans ?_)
    rw [hg1.shape.bytesPerCluster]
    rfl

/-- Where in the chain the first byte goes. -/
def AtEnd.start (way : AtEnd) (clusters size perCluster : Nat) : Nat :=
  way.index clusters size perCluster * perCluster + size % perCluster

theorem AtEnd.index_le (way : AtEnd) (k size n : Nat) : way.index k size n ≤ k - 1 := by
  cases way with
  | append => exact Nat.le_refl _
  | seek => exact Nat.min_le_right ..

/-- It goes to a cluster of the chain, if there is one. -/
theorem AtEnd.start_lt (way : AtEnd) {k size n : Nat} (hn : 0 < n) (hk : k ≠ 0) : way.start k size n < k * n := by
  have hrow := Nat.mul_le_mul_right n (way.index_le k size n)
  have hmod := Nat.mod_lt size hn
  have hk' : k * n = (k - 1) * n + n := by
    rw [← Nat.succ_mul, Nat.succ_eq_add_one, Nat.sub_add_cancel (Nat.one_le_iff_ne_zero.2 hk)]
  rw [AtEnd.start]
  omega

theorem AtEnd.start_eq_iff {k size n : Nat} (hn : 0 < n) :
    way.start k size n = size ↔ way.index k size n = size / n := by
  have hsize := Nat.div_add_mod' size n
  rw [AtEnd.start]
  constructor
  · intro h
    exact Nat.eq_of_mul_eq_mul_right hn (by omega)
  · intro h
    rw [h]
    exact hsize

theorem IsFile.stands_atEnd (h : IsFile fs dir name ds info cs) (way : AtEnd)
    (hcap : info.fileSize ≤ cs.length * fs.vol.bytesPerCluster) :
    Stands fs (atEnd info (cs.getD (way.index cs.length info.fileSize fs.vol.bytesPerCluster) 0)) cs
      (way.start cs.length info.fileSize fs.vol.bytesPerCluster) := by
  have hB := h.sound.size_pos
  have hmod := Nat.mod_lt info.fileSize hB
  refine ⟨h.sound, h.chain, ?_, ?_, ?_⟩
  · rw [AtEnd.start, Nat.add_comm, Nat.add_mul_div_right _ _ hB, Nat.div_eq_of_lt hmod, Nat.zero_add]
    rfl
  · by_cases hcs : cs.length = 0
    · rw [hcs, Nat.zero_mul] at hcap
      have hidx := way.index_le cs.length info.fileSize fs.vol.bytesPerCluster
      rw [AtEnd.start, Nat.le_zero.1 hcap] at *
      rw [Nat.le_zero.mp (hidx.trans (by omega)), Nat.zero_mul, Nat.zero_mod]
      exact Nat.zero_le _
    · exact Nat.le_of_lt (way.start_lt hB hcs)
  · rw [AtEnd.start, Nat.mul_add_mod_self_right, Nat.mod_mod]
    rfl

/-- **What appending does**, wherever it begins. -/
theorem IsFile.appendFile (h : IsFile fs dir name ds info cs) (src : List UInt8) {q : Nat}
    (hcap : info.fileSize ≤ cs.length * fs.vol.bytesPerCluster)
    (hq : way.start cs.length info.fileSize fs.vol.bytesPerCluster = q)
    (hroom : q + src.length ≤ (fs.free.card + cs.length) * fs.vol.bytesPerCluster)
    (hlt : info.fileSize + src.length < 2 ^ 32) (hsome : src = [] → cs ≠ []) :
    ∃ cs' fs', Fat32.appendFile way dir name src fs = some (some src.length, fs') ∧
      IsFile fs' dir name ds { info with fileSize := info.fileSize + src.length }
        (if cs = [] then [] else cs') ∧
      fs'.vol.bytesPerCluster = fs.vol.bytesPerCluster ∧
      q + src.length ≤ cs'.length * fs.vol.bytesPerCluster ∧
      (cs' = cs ∨ cs'.length * fs.vol.bytesPerCluster < q + src.length + fs.vol.bytesPerCluster) ∧
      ∀ x, x < cs.length * fs.vol.bytesPerCluster ∨ (q ≤ x ∧ x < q + src.length) →
        x < cs'.length * fs.vol.bytesPerCluster ∧
        fs'.content cs' x = write (fs.content cs) q src.length (fun i => src.getD i 0) x := by
  obtain ⟨fs1, ho, hg1⟩ := h.openAtEnd way
  have h1 := h.of_goes hg1
  have hsize1 := hg1.shape.bytesPerCluster
  have hst := h1.stands_atEnd way (by rwa [hsize1])
  rw [hsize1, hq] at hst
  have hfree : fs1.free.card = fs.free.card := by
    rw [Fs.free, Fs.free, hg1.shape.totalClusters, hg1.table]
  obtain ⟨cs', fp', fs2, hw, hwrote⟩ := fat32Write_ok hst rfl
    (by
      intro _ hend
      by_contra hne
      have hlt : way.start cs.length info.fileSize fs.vol.bytesPerCluster < cs.length * fs.vol.bytesPerCluster :=
        way.start_lt h.sound.size_pos (mt List.length_eq_zero_iff.1 hne)
      rw [hsize1] at hend
      omega)
    (by rwa [hsize1, hfree]) (Nat.le_refl _) hlt
  have hplace := hwrote.stands.place
  rw [hwrote.grows.shape.bytesPerCluster, hsize1] at hplace
  have hne' : cs' ≠ [] := by
    rintro rfl
    have hnil := List.prefix_nil.1 hwrote.grows.begins
    rw [List.length_nil, Nat.zero_mul] at hplace
    exact hsome (List.eq_nil_of_length_eq_zero (by omega)) hnil
  have hfs : fp'.fileSize = info.fileSize + src.length := by
    rw [hwrote.fileSize]
    exact Nat.max_eq_right (Nat.le_add_right ..)
  obtain ⟨hfile, hshape, hcont⟩ := h1.close hwrote rfl rfl rfl rfl (by rwa [hfs]) hne'
  rw [hfs] at hfile
  refine ⟨cs', fat32Close fp' fs2, ?_, hfile, hshape.bytesPerCluster.trans hsize1, hplace, ?_, fun x hx => ?_⟩
  · rw [Fat32.appendFile, bind_run ho]
    dsimp only
    rw [bind_run hw]
    rfl
  · have := hwrote.minimal
    rwa [hsize1] at this
  · have hlen := Nat.mul_le_mul_right fs.vol.bytesPerCluster hwrote.grows.length_le
    have hx' : x < cs'.length * fs.vol.bytesPerCluster := by omega
    refine ⟨hx', ?_⟩
    rw [hcont x (by rwa [hsize1]), hwrote.content x (by rwa [hsize1]), hg1.content]

/-! ## When appending is right -/

theorem IsFile.readFile_whole (h : IsFile fs dir name ds info cs)
    (hcap : info.fileSize ≤ cs.length * fs.vol.bytesPerCluster) :
    ∃ fs', Fat32.readFile dir name fs = some (some (bytesOf (fs.content cs) 0 info.fileSize), fs') := by
  obtain ⟨fs', hr, -⟩ := h.readFile
  rw [Nat.min_eq_left hcap] at hr
  exact ⟨fs', hr⟩

theorem IsFile.appends (h : IsFile fs dir name ds info cs) (hcap : info.fileSize ≤ cs.length * fs.vol.bytesPerCluster)
    (hland : way.Lands cs.length info.fileSize fs.vol.bytesPerCluster)
    (hlt : info.fileSize + src.length < 2 ^ 32)
    (hroom : info.fileSize + src.length ≤ (fs.free.card + cs.length) * fs.vol.bytesPerCluster) :
    Appends fs way dir name src := by
  obtain ⟨hk, hidx⟩ := (AtEnd.lands_iff h.sound.size_pos).1 hland
  have hne : cs ≠ [] := mt List.length_eq_zero_iff.2 hk
  have hq := (AtEnd.start_eq_iff h.sound.size_pos).2 hidx
  obtain ⟨cs', fs2, ha, hfile, hsize, hplace, -, hcont⟩ := h.appendFile src hcap hq hroom hlt fun _ => hne
  rw [if_neg hne] at hfile
  obtain ⟨fs1, hold⟩ := h.readFile_whole hcap
  obtain ⟨fs3, hnew⟩ := hfile.readFile_whole (by rw [hsize]; exact hplace)
  refine ⟨_, fs1, fs2, fs3, hold, ha, hnew.trans ?_⟩
  congr 3
  rw [bytesOf_add]
  congr 1
  · refine bytesOf_congr fun k hk => ?_
    rw [(hcont (0 + k) (by omega)).2, write_outside (by omega)]
  · rw [Nat.zero_add]
    refine bytesOf_getD fun k hk => ?_
    rw [(hcont (info.fileSize + k) (by omega)).2, write_inside hk]

/-- If a byte is appended and read back, the handle was in the right cluster.  The byte is different
from what the chain has in its place. -/
theorem IsFile.lands_of_appends (h : IsFile fs dir name ds info cs)
    (hcap : info.fileSize ≤ cs.length * fs.vol.bytesPerCluster)
    (hlt : info.fileSize + 1 < 2 ^ 32)
    (hroom : info.fileSize + 1 ≤ (fs.free.card + cs.length) * fs.vol.bytesPerCluster)
    (happ : Appends fs way dir name [fs.content cs info.fileSize + 1]) :
    way.Lands cs.length info.fileSize fs.vol.bytesPerCluster := by
  have hB := h.sound.size_pos
  by_contra hnot
  generalize hq : way.start cs.length info.fileSize fs.vol.bytesPerCluster = q
  have hcase : cs ≠ [] → q < cs.length * fs.vol.bytesPerCluster ∧ q ≠ info.fileSize := by
    intro hne
    have hk : cs.length ≠ 0 := mt List.length_eq_zero_iff.1 hne
    refine ⟨hq ▸ way.start_lt hB hk, fun he => hnot ((AtEnd.lands_iff hB).2 ⟨hk, ?_⟩)⟩
    exact (AtEnd.start_eq_iff hB).mp (hq.trans he)
  have hroom' : q + 1 ≤ (fs.free.card + cs.length) * fs.vol.bytesPerCluster := by
    by_cases hne : cs = []
    · have hidx := way.index_le cs.length info.fileSize fs.vol.bytesPerCluster
      rw [hne, List.length_nil] at hidx
      rw [← hq, AtEnd.start, hne, List.length_nil, Nat.le_zero.1 hidx, Nat.zero_mul, Nat.zero_add]
      rw [hne, List.length_nil] at hroom
      exact (Nat.succ_le_succ (Nat.mod_le _ _)).trans hroom
    · have := (hcase hne).1
      rw [Nat.add_mul]
      omega
  obtain ⟨cs', fs2, ha, hfile, hsize, -, hmin, hcont⟩ := h.appendFile
    [fs.content cs info.fileSize + 1] hcap hq hroom' hlt fun hnil => by cases hnil
  obtain ⟨fs1, hold⟩ := h.readFile_whole hcap
  obtain ⟨fs3, hnew, -⟩ := hfile.readFile
  obtain ⟨old, fs1', fs2', fs3', hold', ha', hnew'⟩ := happ
  obtain ⟨rfl, rfl⟩ : bytesOf (fs.content cs) 0 info.fileSize = old ∧ fs1 = fs1' := by
    simpa using hold.symm.trans hold'
  obtain rfl : fs2 = fs2' := by simpa using ha.symm.trans ha'
  have hread := hnew.symm.trans hnew'
  simp only [Option.some.injEq, Prod.mk.injEq, hsize, List.length_singleton] at hread
  replace hread := hread.1
  have hlen := congrArg List.length hread
  rw [bytesOf_length, List.length_append, bytesOf_length, List.length_singleton] at hlen
  by_cases hne : cs = []
  · rw [if_pos hne, List.length_nil, Nat.zero_mul, Nat.min_zero] at hlen
    omega
  obtain ⟨hq1, hq2⟩ := hcase hne
  rw [if_neg hne] at hlen hread
  have hcap' : info.fileSize + 1 ≤ cs'.length * fs.vol.bytesPerCluster := by omega
  rcases Nat.lt_or_eq_of_le hcap with hin | hend
  · -- the byte at the end of the file is what it was
    rw [Nat.min_eq_left hcap', bytesOf_add] at hread
    have hlast := (List.append_inj hread (by rw [bytesOf_length, bytesOf_length])).2
    rw [Nat.zero_add, bytesOf, List.range_one, List.map_singleton, Nat.add_zero,
      (hcont info.fileSize (Or.inl hin)).2, write_outside (by
        rw [List.length_singleton]
        omega)] at hlast
    exact absurd (List.singleton_inj.1 hlast) (by simp)
  · -- the chain is not long enough
    have hstart : q + fs.vol.bytesPerCluster ≤ info.fileSize := by
      have hmod : info.fileSize % fs.vol.bytesPerCluster = 0 := by rw [hend, Nat.mul_mod_left]
      rw [AtEnd.start, hmod, Nat.add_zero] at hq
      have hrow : way.index cs.length info.fileSize fs.vol.bytesPerCluster + 1 ≤ cs.length := by
        have := way.index_le cs.length info.fileSize fs.vol.bytesPerCluster
        have := List.length_pos_of_ne_nil hne
        omega
      have := Nat.mul_le_mul_right fs.vol.bytesPerCluster hrow
      rw [Nat.succ_mul, hq] at this
      omega
    rcases hmin with rfl | hmin
    · omega
    · rw [List.length_singleton] at hmin
      omega

/-- **Appending is right exactly if the handle is in the cluster that the end of the file is in.**  For
every file whose chain has all of its bytes, and which can grow at all: whatever is appended, as long as
there is room for it and the size remains a 32-bit number, leaves what was there as it was and is found
behind it, if and only if the cluster that `fat32_open` or `fat32_seek` has found is the one that the
position is in. -/
theorem appends_iff (h : IsFile fs dir name ds info cs) (hcap : info.fileSize ≤ cs.length * fs.vol.bytesPerCluster)
    (hlt : info.fileSize + 1 < 2 ^ 32)
    (hroom : info.fileSize + 1 ≤ (fs.free.card + cs.length) * fs.vol.bytesPerCluster)
    (way : AtEnd) :
    (∀ src : List UInt8, info.fileSize + src.length < 2 ^ 32 →
      info.fileSize + src.length ≤ (fs.free.card + cs.length) * fs.vol.bytesPerCluster →
      Appends fs way dir name src) ↔
    way.Lands cs.length info.fileSize fs.vol.bytesPerCluster :=
  ⟨fun happ => h.lands_of_appends hcap hlt hroom (happ _ hlt hroom),
    fun hland _ hlt' hroom' => h.appends hcap hland hlt' hroom'⟩

/-! ## A volume with one file -/

/-- A disk with a file `A` of so many bytes in the root directory, and a cluster for it. -/
def oneFileDisk (size : Nat) : Buf :=
  let disk := put (put tinyDisk 520 4 clusterEoc) 524 4 clusterEoc
  let disk := fill (put disk 1536 1 65) 1537 10 blank
  put (put (put disk 1547 1 attrArchive) 1562 2 3) 1564 4 size

/-- The disk on a device of 100 sectors that never fails. -/
def oneFileFs (size : Nat) : Fs := ⟨zeroVolume, oneFileDisk size, fun _ => ⟨true, fun _ => 0⟩⟩

theorem appends_iff_one_file : ∃ m, fat32Mount 100 (oneFileFs 100) = (true, m) ∧
      Appends m .append 0 [65] [1, 2, 3] ∧ Appends m .seek 0 [65] [1, 2, 3] := by
  have hm : fat32Mount 100 (oneFileFs 100) = (true, (fat32Mount 100 (oneFileFs 100)).2) :=
    Prod.ext (by decide) rfl
  generalize hmm : (fat32Mount 100 (oneFileFs 100)).2 = m at hm
  have htot : m.vol.totalClusters = 99 ∧ m.vol.sectorsPerFat = 1 := by
    rw [← hmm]
    decide
  have hsound := sound_of_hundred hm (fun _ => rfl) htot
  have hchain : ∀ c, c = 2 ∨ c = 3 → Chain m.vol m.table c [c] := by
    intro c hc
    refine .singleton ⟨by omega, by omega⟩ ?_
    rw [← hmm]
    rcases hc with rfl | rfl <;> decide
  have hfile : IsFile m 0 [65] [2] ⟨[65], 3, 100, 0x20, 2, 0⟩ [3] := by
    refine ⟨hsound, by rw [← hmm]; decide, ?_, ?_, hchain 3 (Or.inr rfl), by decide, by decide⟩
    · have : dirOrRoot m.vol 0 = 2 := by
        rw [← hmm]
        decide
      rw [this]
      exact hchain 2 (Or.inl rfl)
    · rw [← hmm]
      decide +kernel
  have hB : m.vol.bytesPerCluster = 512 := by
    rw [← hmm]
    decide
  have hland : ∀ way : AtEnd, way.Lands [3].length 100 m.vol.bytesPerCluster := by
    intro way
    rw [hB]
    cases way with
    | append => exact (by decide : [3].length = 100 / 512 + 1)
    | seek => exact (by decide : 100 < [3].length * 512)
  have happ := fun way => (appends_iff hfile (by rw [hB]; decide) (by decide) (by
    rw [hB, Nat.add_mul]
    exact Nat.le_add_left_of_le (by decide)) way).2 (hland way) [1, 2, 3] (by decide) (by
    rw [hB, Nat.add_mul]
    exact Nat.le_add_left_of_le (by decide))
  exact ⟨m, hm, happ .append, happ .seek⟩

/-- **A file that fills its cluster.**  A byte that is appended to it goes to the beginning of the
cluster: the first byte is overwritten, and no more can be read than before. -/
theorem append_overwrites : ∃ m fs₁ fs₂ fs₃, fat32Mount 100 (oneFileFs 512) = (true, m) ∧
      readFile 0 [65] m = some (some (List.replicate 512 0), fs₁) ∧
      appendFile .append 0 [65] [1] m = some (some 1, fs₂) ∧
      readFile 0 [65] fs₂ = some (some (1 :: List.replicate 511 0), fs₃) ∧
      ¬Appends m .append 0 [65] [1] := by
  have hrun : ∀ {α : Type} {x : Option (α × Fs)} {a : α}, x.map Prod.fst = some a → ∃ fs, x = some (a, fs) := by
    intro α x a hx
    obtain ⟨⟨b, fs⟩, rfl, rfl⟩ := Option.map_eq_some_iff.1 hx
    exact ⟨fs, rfl⟩
  have hm : fat32Mount 100 (oneFileFs 512) = (true, (fat32Mount 100 (oneFileFs 512)).2) :=
    Prod.ext (by decide) rfl
  obtain ⟨fs₁, h₁⟩ := hrun (show (readFile 0 [65] (fat32Mount 100 (oneFileFs 512)).2).map Prod.fst =
    some (some (List.replicate 512 0)) by decide +kernel)
  obtain ⟨fs₂, h₂⟩ := hrun (show (appendFile .append 0 [65] [1] (fat32Mount 100 (oneFileFs 512)).2).map
    Prod.fst = some (some 1) by decide)
  have h₃ : ((appendFile .append 0 [65] [1] (fat32Mount 100 (oneFileFs 512)).2).bind fun r =>
      (readFile 0 [65] r.2).map Prod.fst) = some (some (1 :: List.replicate 511 0)) := by
    decide +kernel
  rw [h₂] at h₃
  obtain ⟨fs₃, h₃⟩ := hrun (show (readFile 0 [65] fs₂).map Prod.fst = _ from h₃)
  refine ⟨_, fs₁, fs₂, fs₃, hm, h₁, h₂, h₃, ?_⟩
  rintro ⟨old, fs₁', fs₂', fs₃', h₁', h₂', h₃'⟩
  obtain rfl : List.replicate 512 0 = old := by
    have := h₁.symm.trans h₁'
    simp only [Option.some.injEq, Prod.mk.injEq] at this
    exact this.1
  obtain rfl : fs₂ = fs₂' := by
    have := h₂.symm.trans h₂'
    simp only [Option.some.injEq, Prod.mk.injEq] at this
    exact this.2
  have hnew := h₃.symm.trans h₃'
  simp only [Option.some.injEq, Prod.mk.injEq] at hnew
  have hlen := congrArg List.length hnew.1
  simp only [List.length_cons, List.length_replicate, List.length_append, List.length_nil] at hlen
  omega

end WuBuOS.Fat32
