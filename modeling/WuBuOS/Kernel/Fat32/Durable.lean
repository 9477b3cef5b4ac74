import WuBuOS.Kernel.Fat32.Remount
import WuBuOS.Kernel.Fat32.WriteRead

/-!
# What is on disk when a file is closed

What a file holds is written to disk at once, and so is its directory entry when it is closed; but the
links of its chain are written to the cached sector of the table, and `fat32_close` does not flush it.
The device, mounted a second time, has the table that is on disk (`remount`).  There the chain begins at
the same cluster and goes on as far as the links on disk are the right ones (`Chain.path`).

So the whole file is there if the links up to its last cluster are on disk, and only its beginning is
if one of them is not and the entry on disk is that of a free cluster.
-/

namespace WuBuOS.Fat32

open Bytes
open Trail (Path)

variable {fs fs' : Fs} {fp fp' : File} {c k : Nat} {cs ds : List Nat} {t t' : Nat → Nat} {vol : Volume}

/-! ## Following links -/

/-- **The beginning of a chain**, in a table that has its links. -/
theorem Chain.path (h : Chain vol t c cs) (hk : k < cs.length) (ht : ∀ x ∈ cs.take k, t' x = t x) :
    Path (nextOf t') (InVolume vol) c (cs.take (k + 1)) (nextOf t' (cs.getD k 0)) := by
  induction k generalizing c cs with
  | zero =>
    obtain ⟨x, cs, rfl⟩ := List.exists_cons_of_length_pos hk
    exact ⟨h.head, h.inVolume x List.mem_cons_self, rfl⟩
  | succ k ih =>
    obtain ⟨x, cs, rfl⟩ := List.exists_cons_of_length_pos (Nat.zero_lt_of_lt hk)
    refine ⟨h.head, h.inVolume x List.mem_cons_self, ?_⟩
    rw [nextOf, ht x List.mem_cons_self]
    exact ih h.tail (Nat.lt_of_succ_lt_succ hk) fun y hy => ht y (List.mem_cons_of_mem x hy)

/-! ## Finding -/

variable {name : List UInt8} {info : FileInfo} {lfn : Lfn}

/-- What is behind an entry does not matter for finding it. -/
theorem lookup_take {slots : Nat} {d : Nat → Buf} (hnd : ds.Nodup) (h : lookup slots d name ds lfn = some info) :
    lookup slots d name (ds.take (ds.idxOf info.dirCluster + 1)) lfn = some info := by
  induction ds generalizing lfn with
  | nil => cases h
  | cons x ds ih =>
    obtain ⟨hx, hnd⟩ := List.nodup_cons.1 hnd
    rw [lookup] at h
    split at h
    · cases h
    · rename_i hslots
      cases h
      obtain ⟨-, -, rfl, -⟩ := findSlots_hit (d x) hslots
      rw [List.idxOf_cons_self, List.take_succ_cons, lookup, hslots]
    · rename_i hslots
      have hmem := (lookup_spec d hnd h).1
      have hne : x ≠ info.dirCluster := by
        rintro rfl
        exact hx hmem
      rw [List.idxOf_cons_ne _ hne, List.take_succ_cons, lookup, hslots]
      exact ih hnd h

/-! ## Writing -/

variable {q nSectors dir : Nat} {srcs : List (List UInt8)} {ns : List Nat}

/-- **No call that has something to write begins where a cluster ends**, except at the beginning of the
file or when there is no cluster left. -/
def WritesInside : List (List UInt8) → File → Fs → Prop
  | [], _, _ => True
  | src :: srcs, fp, fs =>
    (src = [] ∨ fp.pos = 0 ∨ fp.pos % fs.vol.bytesPerCluster ≠ 0 ∨ fs.free.card = 0) ∧
      ∀ r fs', fat32Write fp src fs = some (r, fs') → WritesInside srcs r.2 fs'

/-- What calls that returned these numbers have written. -/
def writtenBytes (srcs : List (List UInt8)) (ns : List Nat) : List UInt8 :=
  (List.zipWith List.take ns srcs).flatten

theorem writtenBytes_length_le (srcs : List (List UInt8)) (ns : List Nat) :
    (writtenBytes srcs ns).length ≤ srcs.flatten.length := by
  induction srcs generalizing ns with
  | nil => simp [writtenBytes]
  | cons src srcs ih =>
    cases ns with
    | nil => simp [writtenBytes]
    | cons n ns =>
      have := ih ns
      simp only [writtenBytes, List.zipWith_cons_cons, List.flatten_cons, List.length_append,
        List.length_take] at this ⊢
      omega

/-- **Every call writes as much as there is room for**, and the chain holds what they wrote. -/
theorem writeAll_any (h : Stands fs fp cs q) (hmode : fp.writeMode = true) (hcs : cs ≠ [])
    (hq : fp.pos = q) (hpos : fp.pos ≤ fp.fileSize) (hin : WritesInside srcs fp fs)
    (hlt : fp.pos + srcs.flatten.length < 2 ^ 32) :
    ∃ ns cs' fp' fs', writeAll srcs fp fs = some ((ns, fp'), fs') ∧
      Wrote fs fs' fp fp' cs cs' q (writtenBytes srcs ns) := by
  induction srcs generalizing fs fp cs q with
  | nil => exact ⟨[], cs, fp, fs, rfl, .of_goes (.refl h.sound) h hpos⟩
  | cons src srcs ih =>
    obtain ⟨hfirst, hrest⟩ := hin
    rw [List.flatten_cons, List.length_append] at hlt
    have hB := h.sound.size_pos
    have htot : 2 < fs.vol.totalClusters := by
      obtain ⟨x, l, rfl⟩ := List.exists_cons_of_ne_nil hcs
      have hx := h.chain.inVolume x List.mem_cons_self
      exact hx.1.trans_lt hx.2
    have hmid : src ≠ [] → q = cs.length * fs.vol.bytesPerCluster → cs = [] ∨ fs.free.card = 0 := by
      rw [hq] at hfirst
      intro hsrc hend
      rcases hfirst with h0 | h0 | h0 | h0
      · exact absurd h0 hsrc
      · exact Or.inl (eq_nil_of_starts hB hend (.inl h0))
      · exact Or.inl (eq_nil_of_starts hB hend (.inr h0))
      · exact Or.inr h0
    obtain ⟨n, cs1, fp1, fs1, hw, hwrote, hn, -⟩ := fat32Write_any h hmode htot hmid hpos (by omega)
    have hlen : (src.take n).length = n := List.length_take_of_le hn
    have hcs1 : cs1 ≠ [] := by
      rintro rfl
      exact hcs (List.prefix_nil.1 hwrote.grows.begins)
    obtain ⟨ns, cs', fp', fs', hl, hwrote'⟩ := ih hwrote.stands (hwrote.writeMode.trans hmode) hcs1
      (by rw [hwrote.pos, hq]) (by rw [hwrote.pos, hwrote.fileSize]; omega) (hrest _ _ hw)
      (by rw [hwrote.pos]; omega)
    refine ⟨n :: ns, cs', fp', fs', ?_, hwrote.trans hwrote'⟩
    rw [writeAll, bind_run hw, bind_run hl]
    rfl

theorem writeAll_sparing (srcs : List (List UInt8)) (fp : File) : Sparing (writeAll srcs fp) := by
  induction srcs generalizing fp with
  | nil => exact .pure _
  | cons src srcs ih =>
    exact .bind (fat32Write_sparing fp src) fun r => .bind (ih r.2) fun _ => .pure _

/-- Closing a file writes nothing to the table. -/
theorem fat32Close_diskTable (hs : Sound fs) (fp : File) : (fat32Close fp fs).diskTable = fs.diskTable := by
  have hshape := (fat32Close_spares fp hs.ordered).shape
  have hdisk : ∀ x < (fs.vol.fat2Lba + fs.vol.sectorsPerFat) * sectorSize, (fat32Close fp fs).disk x = fs.disk x := by
    intro x hx
    rw [fat32Close]
    split
    · rename_i hfp
      obtain ⟨hm, hg1⟩ := malloc_ok hs
      obtain ⟨hr, -⟩ := readCluster_ok hg1.sound hfp.2.2
      simp only [hm, hr]
      exact write_outside (Or.inl (hx.trans_le (hs.data_outside hfp.2.2)))
    · rfl
  funext c
  rw [Fs.diskTable, Fs.diskTable, hshape.sectorsPerFat, hshape.fat1Lba]
  split
  · rename_i hc
    have hmod : c % entriesPerSector < 128 := Nat.mod_lt _ (by decide)
    have hle : fs.vol.fat1Lba + c / entriesPerSector + 1 ≤ fs.vol.fat2Lba + fs.vol.sectorsPerFat := by
      rw [hs.consistent.fat2]
      omega
    congr 1
    refine get_congr fun x _ hx => hdisk x ?_
    have hsec := Nat.mul_le_mul_right sectorSize hle
    rw [Nat.succ_mul] at hsec
    refine hx.trans_le (Nat.le_trans ?_ hsec)
    simp only [sectorSize]
    omega
  · rfl

/-! ## Closing a file and mounting the device again -/

theorem fat32Close_table (hs : Sound fs) (fp : File) : (fat32Close fp fs).table = fs.table := by
  by_cases hfp : fp.writeMode ∧ 2 ≤ fp.firstCluster ∧ 2 ≤ fp.dirCluster
  · obtain ⟨now, hg⟩ := fat32Close_ok hs hfp.1 hfp.2.1 hfp.2.2
    exact hg.table
  · rw [fat32Close, if_neg hfp]

/-- **A file read from the device, mounted again**, as far as its links are on disk. -/
theorem IsFile.read_again (h : IsFile fs dir name ds info cs) (hb : Booted nSectors fs)
    (hentry : ∀ x ∈ ds.take (ds.idxOf info.dirCluster), OnDisk fs x) (hk : k < cs.length)
    (hlinks : ∀ x ∈ cs.take k, OnDisk fs x)
    (hend : info.fileSize ≤ (k + 1) * fs.vol.bytesPerCluster ∨ nextOf fs.diskTable (cs.getD k 0) = 0) :
    ∃ m fs', fat32Mount nSectors fs = (true, m) ∧ Fat32.readFile dir name m = some (some (bytesOf (fs.content cs) 0
        (min info.fileSize ((k + 1) * fs.vol.bytesPerCluster))), fs') := by
  obtain ⟨hmem, -⟩ := lookup_spec fs.data h.dir.list.nodup h.found
  have hdc := h.dir.inVolume _ hmem
  obtain ⟨m, hmount, hm, hshape, htable, hdata⟩ := remount hb h.sound (hdc.1.trans_lt hdc.2)
  have hB := hshape.bytesPerCluster
  -- the entry is found
  have hdir : Path (nextOf m.table) (InVolume m.vol) (dirOrRoot m.vol (dirOrRoot m.vol dir))
      (ds.take (ds.idxOf info.dirCluster + 1))
      (nextOf m.table (ds.getD (ds.idxOf info.dirCluster) 0)) := by
    rw [dirOrRoot_dirOrRoot, hshape.dirOrRoot]
    refine (h.dir.congr hshape fun _ _ => rfl).path (List.idxOf_lt_length_of_mem hmem) fun x hx => ?_
    rw [htable]
    exact hentry x hx
  have hlook : m.lookup (ds.take (ds.idxOf info.dirCluster + 1)) name = some info := by
    rw [Fs.lookup, hshape.entriesPerCluster, hdata]
    exact lookup_take h.dir.list.nodup h.found
  obtain ⟨fs1, hf, hg⟩ := fat32Find_path hm hdir (fun hnone => absurd (hlook.symm.trans hnone) (Option.some_ne_none _))
    (by
      have := h.dir.length_lt h.sound
      rw [List.length_take]
      omega)
  have hopen : fat32Open dir name .r m = some (some (openInfo info info.fileSize false), fs1) := by
    rw [fat32Open, bind_run (get_run _),
      if_neg (by rw [hshape.mounted, h.mounted]; decide), bind_run (get_run _), bind_run hf, hlook]
    rfl
  -- its clusters are read
  have hfile : Path (nextOf fs1.table) (InVolume fs1.vol) info.firstCluster (cs.take (k + 1))
      (nextOf fs.diskTable (cs.getD k 0)) := by
    rw [hg.table, htable]
    exact (h.chain.congr (hshape.trans hg.shape) fun _ _ => rfl).path hk hlinks
  have hlen : (cs.take (k + 1)).length = k + 1 := List.length_take_of_le hk
  have hB1 : fs1.vol.bytesPerCluster = fs.vol.bytesPerCluster := hg.shape.bytesPerCluster.trans hB
  have hcont : bytesOf (fs1.content (cs.take (k + 1))) 0
      (min info.fileSize ((k + 1) * fs.vol.bytesPerCluster)) =
      bytesOf (fs.content cs) 0 (min info.fileSize ((k + 1) * fs.vol.bytesPerCluster)) := by
    refine bytesOf_congr fun i hi => ?_
    rw [Fs.content, Fs.content, hB1, hg.data, hdata]
    refine (Blocks.flat_of_prefix (List.take_prefix (k + 1) cs) ?_).symm
    rw [hlen]
    omega
  have halong : Along fs1 (openInfo info info.fileSize false) (cs.take (k + 1)) (nextOf fs.diskTable (cs.getD k 0)) 0 :=
    ⟨hg.sound, fun _ => hfile.live_of_mem, fun _ => hfile.next_getD, by rw [Nat.zero_div]; exact hfile.head_getD,
      Nat.zero_le _, rfl⟩
  obtain ⟨fs2, hread, -⟩ := readLoop_along halong (Nat.le_refl info.fileSize) (by rwa [hlen, hB1, Nat.sub_zero]) rfl
  rw [hlen, hB1, Nat.sub_zero, hcont] at hread
  refine ⟨m, fs2, hmount, ?_⟩
  rw [Fat32.readFile, bind_run hopen]
  refine lift_run ?_
  rw [fat32Read_whole, hread]

/-- Open a file with mode `"w"`, write to it, close it, mount the device into a second volume structure
and read the file there; what the calls of `fat32_write` return, and what is read. -/
def writeThenRemount (nSectors dir : Nat) (name : List UInt8) (srcs : List (List UInt8)) :
    M (Option (List Nat × Option (List UInt8))) := do
  match ← fat32Open dir name .w with
  | none => return none
  | some fp =>
    let r ← writeAll srcs fp
    modify (fat32Close r.2)
    if ← lift (fat32Mount nSectors) then
      let bytes ← readFile dir name
      return some (r.1, bytes)
    else return some (r.1, none)

/-- **The links to the entry of the file are on disk.** -/
def EntryOnDisk (fs : Fs) (dir : Nat) (fp : File) : Prop :=
  ∀ ds, Chain fs.vol fs.table (dirOrRoot fs.vol dir) ds →
    ∀ x ∈ ds.take (ds.idxOf fp.dirCluster), OnDisk fs x

/-- The links of the file, as far as its bytes go. -/
def IsLink (fs : Fs) (fp : File) (c : Nat) : Prop :=
  ∃ cs, Chain fs.vol fs.table fp.firstCluster cs ∧
    c ∈ cs.take ((fp.fileSize - 1) / fs.vol.bytesPerCluster)

/-- **What is known of a file that has been opened with mode `"w"`, written and closed.** -/
structure Closed (nSectors dir : Nat) (name : List UInt8) (srcs : List (List UInt8)) (ns : List Nat)
    (fs : Fs) (fp : File) (ds : List Nat) (info : FileInfo) (cs : List Nat) : Prop where
  file : IsFile (fat32Close fp fs) dir name ds info cs
  booted : Booted nSectors (fat32Close fp fs)
  sound : Sound fs
  shape : SameShape fs.vol (fat32Close fp fs).vol
  table : (fat32Close fp fs).table = fs.table
  firstCluster : info.firstCluster = fp.firstCluster
  dirCluster : info.dirCluster = fp.dirCluster
  fileSize : info.fileSize = fp.fileSize ∧ fp.fileSize = (writtenBytes srcs ns).length
  room : cs ≠ [] ∧ fp.fileSize ≤ cs.length * fs.vol.bytesPerCluster
  content : bytesOf ((fat32Close fp fs).content cs) 0 fp.fileSize = writtenBytes srcs ns

theorem closed_of_run {fs1 fs2 : Fs} (hb : Booted nSectors fs) (hs : Sound fs)
    (hmounted : fs.vol.mounted = true) (hch : Chain fs.vol fs.table (dirOrRoot fs.vol dir) ds)
    (hne : ds ≠ []) (hrep : Replaceable fs ds name)
    (hopen : fat32Open dir name .w fs = some (some fp, fs1))
    (hfind : fat32Find dir name fs1 = some (some info, fs2)) (hdc : info.dirCluster = fp.dirCluster)
    (hdo : info.dirOffset = fp.dirOffset) (hlt : srcs.flatten.length < 2 ^ 32)
    (hin : WritesInside srcs fp fs1) :
    ∃ ns fp' fs3 ds' info' cs, writeAll srcs fp fs1 = some ((ns, fp'), fs3) ∧
      Closed nSectors dir name srcs ns fs3 fp' ds' info' cs := by
  obtain ⟨ds', hfile, hshape, hfirst, hcur, hpos, hsize, hmode⟩ :=
    fat32Open_w hs hmounted hch hne hrep hopen hfind hdc hdo
  have hst : Stands fs1 fp [fp.firstCluster] 0 := by
    refine ⟨hfile.sound, hfirst ▸ hfile.chain, ?_, Nat.zero_le _, by rw [hpos]⟩
    rw [Nat.zero_div, hcur]
    rfl
  obtain ⟨ns, cs', fp', fs3, hw, hwrote⟩ := writeAll_any hst hmode (List.cons_ne_nil _ _) hpos
    (by rw [hpos]; exact Nat.zero_le _) hin (by rwa [hpos, Nat.zero_add])
  have hfs : fp'.fileSize = (writtenBytes srcs ns).length := by
    rw [hwrote.fileSize, hsize, hpos, Nat.zero_add]
    exact Nat.max_eq_right (Nat.zero_le _)
  have hlt' : fp'.fileSize < 2 ^ 32 := by
    rw [hfs]
    exact (writtenBytes_length_le srcs ns).trans_lt hlt
  have hne' : cs' ≠ [] := by
    rintro rfl
    exact absurd (List.prefix_nil.1 hwrote.grows.begins) (List.cons_ne_nil _ _)
  obtain ⟨hclosed, hshape', hcont⟩ := hfile.close hwrote hmode hfirst.symm hdc.symm hdo.symm hlt' hne'
  rw [if_neg (List.cons_ne_nil _ _)] at hclosed
  have hplace := hwrote.stands.place
  rw [Nat.zero_add, ← hfs] at hplace
  have hB := hwrote.grows.shape.bytesPerCluster
  -- nothing of this was written before the table
  have hsp := ((fat32Open_sparing dir name .w fs _ _ hs.ordered hopen).trans
    (writeAll_sparing srcs fp fs1 _ _ hfile.sound.ordered hw)).trans
    (fat32Close_spares fp' hwrote.stands.sound.ordered)
  have hfirst' : fp'.firstCluster = fp.firstCluster := hwrote.firstCluster (List.cons_ne_nil _ _)
  refine ⟨ns, fp', fs3, ds', _, cs', hw, hclosed, hb.of_spares hsp, hwrote.stands.sound,
    (fat32Close_spares fp' hwrote.stands.sound.ordered).shape,
    fat32Close_table hwrote.stands.sound fp', hfirst.trans hfirst'.symm,
    hdc.trans hwrote.dirCluster.symm, ⟨rfl, hfs⟩, ⟨hne', hplace⟩, ?_⟩
  rw [hfs]
  refine bytesOf_getD fun i hi => ?_
  rw [hfs, hB] at hplace
  rw [hcont _ (by omega), hwrote.content _ (Or.inr (by omega)), write_inside hi]

variable {info' : FileInfo}

theorem Closed.onDisk (h : Closed nSectors dir name srcs ns fs fp ds info cs) :
    OnDisk (fat32Close fp fs) c ↔ OnDisk fs c := by
  rw [OnDisk, OnDisk, h.table, fat32Close_diskTable h.sound]

theorem Closed.chain (h : Closed nSectors dir name srcs ns fs fp ds info cs) :
    Chain fs.vol fs.table fp.firstCluster cs := by
  have := h.file.chain
  rw [h.firstCluster] at this
  exact this.congr h.shape.symm fun _ _ => by rw [h.table]

/-- The links of the file are those of its chain. -/
theorem Closed.isLink_iff (h : Closed nSectors dir name srcs ns fs fp ds info cs) :
    IsLink fs fp c ↔ c ∈ cs.take ((fp.fileSize - 1) / fs.vol.bytesPerCluster) := by
  constructor
  · rintro ⟨cs', hcs', hc⟩
    rwa [hcs'.list.unique h.chain.list] at hc
  · exact fun hc => ⟨cs, h.chain, hc⟩

/-- The file as it is read after the device has been mounted again. -/
theorem Closed.read_again (h : Closed nSectors dir name srcs ns fs fp ds info cs)
    (hentry : EntryOnDisk fs dir fp) (hk : k < cs.length) (hlinks : ∀ x ∈ cs.take k, OnDisk fs x)
    (hend : fp.fileSize ≤ (k + 1) * fs.vol.bytesPerCluster ∨ nextOf fs.diskTable (cs.getD k 0) = 0) :
    ∃ m fs', fat32Mount nSectors (fat32Close fp fs) = (true, m) ∧ readFile dir name m =
        some (some ((writtenBytes srcs ns).take ((k + 1) * fs.vol.bytesPerCluster)), fs') := by
  have hdir : Chain fs.vol fs.table (dirOrRoot fs.vol dir) ds := by
    have := h.file.dir
    rw [h.shape.dirOrRoot] at this
    exact this.congr h.shape.symm fun _ _ => by rw [h.table]
  have hB := h.shape.bytesPerCluster
  obtain ⟨m, fs', hm, hr⟩ := h.file.read_again h.booted
    (fun x hx => h.onDisk.2 (hentry ds hdir x (h.dirCluster ▸ hx))) hk
    (fun x hx => h.onDisk.2 (hlinks x hx))
    (by rw [h.fileSize.1, hB, fat32Close_diskTable h.sound]; exact hend)
  refine ⟨m, fs', hm, ?_⟩
  rw [hr, h.fileSize.1, hB, ← h.content, bytesOf_take_min, Nat.min_comm]

/-- **What is written to a file is on disk when it is closed**, exactly if the links of its chain are.
A file is opened with mode `"w"`, in a directory of a sound volume, and found there under its name; no call
that has something to write begins where a cluster ends, and the links to its entry are on disk.  Then,
if the links of the chain are on disk as well, the device mounted a second time has the whole file; and
only then, if a link that is not on disk is not a link to another cluster there. -/
theorem durable_at_close {fs₁ fs₂ : Fs} (hb : Booted nSectors fs) (hs : Sound fs)
    (hmounted : fs.vol.mounted = true) (hch : Chain fs.vol fs.table (dirOrRoot fs.vol dir) ds)
    (hne : ds ≠ []) (hrep : Replaceable fs ds name)
    (hopen : fat32Open dir name .w fs = some (some fp, fs₁))
    (hfind : fat32Find dir name fs₁ = some (some info, fs₂)) (hdc : info.dirCluster = fp.dirCluster)
    (hdo : info.dirOffset = fp.dirOffset) (hlt : srcs.flatten.length < 2 ^ 32)
    (hin : WritesInside srcs fp fs₁) :
    ∃ ns fp' fs₃, writeAll srcs fp fs₁ = some ((ns, fp'), fs₃) ∧ (EntryOnDisk fs₃ dir fp' →
        ((∀ c, IsLink fs₃ fp' c → OnDisk fs₃ c) → (writeThenRemount nSectors dir name srcs fs).map Prod.fst =
            some (some (ns, some (writtenBytes srcs ns)))) ∧
        ((∀ c, IsLink fs₃ fp' c → OnDisk fs₃ c ∨ nextOf fs₃.diskTable c = 0) →
          (writeThenRemount nSectors dir name srcs fs).map Prod.fst = some (some (ns, some (writtenBytes srcs ns))) →
          ∀ c, IsLink fs₃ fp' c → OnDisk fs₃ c)) := by
  obtain ⟨ns, fp', fs₃, ds', info', cs, hw, h⟩ :=
    closed_of_run hb hs hmounted hch hne hrep hopen hfind hdc hdo hlt hin
  have hB := h.sound.size_pos
  obtain ⟨hcs, hroom⟩ := h.room
  have hrun : ∀ {m fs' : Fs} {bytes : Option (List UInt8)},
      fat32Mount nSectors (fat32Close fp' fs₃) = (true, m) → readFile dir name m = some (bytes, fs') →
        (writeThenRemount nSectors dir name srcs fs).map Prod.fst = some (some (ns, bytes)) := by
    intro m fs' bytes hm hr
    rw [writeThenRemount, bind_run hopen]
    dsimp only
    rw [bind_run hw, bind_run (modify_run _ _), bind_run (lift_run hm), if_pos rfl, bind_run hr]
    rfl
  refine ⟨ns, fp', fs₃, hw, fun hentry => ⟨fun hlinks => ?_, fun hstale hread => ?_⟩⟩
  · -- the whole chain up to the last byte is there
    have hk : (fp'.fileSize - 1) / fs₃.vol.bytesPerCluster < cs.length := by
      have hlen := Nat.mul_pos (List.length_pos_of_ne_nil hcs) hB
      exact Nat.div_lt_of_lt_mul (by rw [Nat.mul_comm]; omega)
    have hlast : fp'.fileSize ≤ ((fp'.fileSize - 1) / fs₃.vol.bytesPerCluster + 1) * fs₃.vol.bytesPerCluster := by
      have := Nat.lt_mul_div_succ (fp'.fileSize - 1) hB
      rw [Nat.mul_comm] at this
      omega
    obtain ⟨m, fs', hm, hr⟩ := h.read_again hentry hk (fun x hx => hlinks x (h.isLink_iff.2 hx))
      (Or.inl hlast)
    rw [List.take_of_length_le (by rw [← h.fileSize.2]; exact hlast)] at hr
    exact hrun hm hr
  · -- what is read ends at the first link that is not there
    have hstep : ∀ k, k < (fp'.fileSize - 1) / fs₃.vol.bytesPerCluster → k < cs.length →
        (∀ x ∈ cs.take k, OnDisk fs₃ x) → OnDisk fs₃ (cs.getD k 0) := by
      intro k hk hkcs hbefore
      have hmem : cs.getD k 0 ∈ cs.take ((fp'.fileSize - 1) / fs₃.vol.bytesPerCluster) := by
        rw [List.getD_eq_getElem _ _ hkcs]
        exact List.mem_take_iff_getElem.2 ⟨k, by omega, rfl⟩
      rcases hstale _ (h.isLink_iff.2 hmem) with hon | hend
      · exact hon
      obtain ⟨m, fs', hm, hr⟩ := h.read_again hentry hkcs hbefore (Or.inr hend)
      have htake := (hrun hm hr).symm.trans hread
      simp only [Option.some.injEq, Prod.mk.injEq, true_and, List.take_eq_self_iff, ← h.fileSize.2] at htake
      have hle : (k + 1) * fs₃.vol.bytesPerCluster ≤ fp'.fileSize - 1 :=
        (Nat.mul_le_mul_right _ (Nat.succ_le_of_lt hk)).trans (Nat.div_mul_le_self ..)
      have hpos : 0 < (k + 1) * fs₃.vol.bytesPerCluster := Nat.mul_pos k.succ_pos hB
      omega
    have hall : ∀ k ≤ (fp'.fileSize - 1) / fs₃.vol.bytesPerCluster, ∀ x ∈ cs.take k, OnDisk fs₃ x := by
      intro k
      induction k with
      | zero => exact fun _ x hx => absurd hx (by simp)
      | succ k ih =>
        intro hk x hx
        rcases Nat.lt_or_ge k cs.length with hlt' | hge
        · rw [List.take_succ_eq_append_getElem hlt', List.mem_append, List.mem_singleton] at hx
          rcases hx with hx | rfl
          · exact ih (by omega) x hx
          · rw [← List.getD_eq_getElem _ 0 hlt']
            exact hstep k hk hlt' (ih (by omega))
        · rw [List.take_of_length_le (by omega)] at hx
          exact ih (by omega) x (by rwa [List.take_of_length_le hge])
    exact fun c hc => hall _ (Nat.le_refl _) c (h.isLink_iff.1 hc)

/-- The disk with a file of 513 bytes, in the clusters 3 and 4. -/
def filledFs : Fs :=
  { emptyFs with disk := put (put (put (put (put (put emptyFs.disk 524 4 4) 528 4 clusterEoc)
      1536 8 0x2020202020202041) 1544 4 0x20202020) 1562 2 3) 1564 4 513 }

/-- The volume on it. -/
def filledVolume : Fs := (fat32Mount 100 filledFs).2

theorem filledVolume_mount : fat32Mount 100 filledFs = (true, filledVolume) :=
  Prod.ext (by decide) rfl

theorem filledVolume_shape : filledVolume.vol.totalClusters = 99 ∧ filledVolume.vol.sectorsPerFat = 1 ∧
    filledVolume.vol.mounted = true ∧ dirOrRoot filledVolume.vol 0 = 2 := by
  decide

theorem filledVolume_sound : Sound filledVolume := by
  obtain ⟨htot, hfat, -⟩ := filledVolume_shape
  exact sound_of_hundred filledVolume_mount (fun _ => rfl) ⟨htot, hfat⟩

theorem filledVolume_chain : Chain filledVolume.vol filledVolume.table (dirOrRoot filledVolume.vol 0) [2] := by
  obtain ⟨htot, -, -, hroot⟩ := filledVolume_shape
  rw [hroot]
  exact .singleton ⟨Nat.le_refl 2, by rw [htot]; decide⟩ (by decide)

/-- The file that is there can be deleted. -/
theorem filledVolume_replaceable : Replaceable filledVolume [2] [65] := by
  intro info hinfo
  rw [show filledVolume.lookup [2] [65] = some ⟨[65], 3, 513, 0x20, 2, 0⟩ by decide +kernel] at hinfo
  obtain rfl := Option.some_inj.1 hinfo
  have hin : ∀ x ∈ [3, 4], InVolume filledVolume.vol x := by
    rw [List.forall_mem_cons, List.forall_mem_singleton, InVolume, InVolume, filledVolume_shape.1]
    decide
  have htail : Chain filledVolume.vol filledVolume.table 4 [4] :=
    .singleton (hin 4 (by decide)) (by decide)
  exact ⟨⟨[3, 4], ⟨⟨rfl, by decide, by decide, htail.list.2⟩, hin, by decide⟩, by decide⟩, by decide +kernel⟩

/-- The file is replaced by another of two clusters, and the disk has the link between them. -/
theorem durable_at_close_replaced : ∃ m, fat32Mount 100 filledFs = (true, m) ∧
      (writeThenRemount 100 0 [65] [List.replicate 513 7] m).map Prod.fst =
        some (some ([513], some (List.replicate 513 7))) := by
  obtain ⟨-, -, hmounted, -⟩ := filledVolume_shape
  obtain ⟨fs₁, fs₂, hopen, hfind⟩ : ∃ fs1 fs2,
      fat32Open 0 [65] .w filledVolume = some (some ⟨3, 3, 0, 0x20, 0, true, 2, 0⟩, fs1) ∧
        fat32Find 0 [65] fs1 = some (some ⟨[65], 3, 0, 0x20, 2, 0⟩, fs2) := open_of_check (by decide +kernel)
  have hb : Booted 100 filledVolume :=
    booted_of_mount filledVolume_mount (fun _ => rfl) (by decide)
  obtain ⟨ns, fp', fs₃, hw, hdurable⟩ := durable_at_close hb filledVolume_sound hmounted
    filledVolume_chain (List.cons_ne_nil _ _) filledVolume_replaceable hopen hfind rfl rfl
    (show [List.replicate 513 7].flatten.length < 2 ^ 32 by decide +kernel)
    ⟨Or.inr (Or.inl rfl), fun _ _ _ => trivial⟩
  have hrun : ((fat32Open 0 [65] .w filledVolume).bind fun r =>
      (writeAll [List.replicate 513 7] ⟨3, 3, 0, 0x20, 0, true, 2, 0⟩ r.2).map fun r =>
        (r.1, r.2.vol.bytesPerCluster, dirOrRoot r.2.vol 0, r.2.diskTable 3, r.2.table 3)) =
      some (([513], ⟨3, 4, 513, 0x20, 513, true, 2, 0⟩), 512, 2, 4, 4) := by
    decide +kernel
  rw [hopen, Option.bind_some, hw, Option.map_some] at hrun
  simp only [Option.some.injEq, Prod.mk.injEq] at hrun
  obtain ⟨⟨rfl, rfl⟩, hB, hroot, hdisk, hcache⟩ := hrun
  have hbytes : writtenBytes [List.replicate 513 7] [513] = List.replicate 513 7 := by
    decide +kernel
  rw [hbytes] at hdurable
  refine ⟨filledVolume, filledVolume_mount, (hdurable fun ds hds x hx => ?_).1 fun c hc => ?_⟩
  · -- the entry is in the first cluster of the directory
    rw [hroot] at hds
    cases ds with
    | nil => cases hx
    | cons y ds =>
      rw [← hds.head, List.idxOf_cons_self] at hx
      cases hx
  · -- the first cluster is the only one with a link
    obtain ⟨cs, hcs, hc⟩ := hc
    rw [hB] at hc
    cases cs with
    | nil => cases hc
    | cons y cs =>
      rw [List.mem_singleton.1 hc, ← hcs.head]
      exact hdisk.trans hcache.symm

/-- **A file of two clusters.**  The link between them is in the cache when the file is closed, and only
the first of them is found when the device is mounted again. -/
theorem durable_at_close_cached : ∃ m, fat32Mount 100 emptyFs = (true, m) ∧
      (writeThenRemount 100 0 [65] [List.replicate 513 7] m).map Prod.fst =
        some (some ([513], some (List.replicate 512 7))) ∧
      writtenBytes [List.replicate 513 7] [513] ≠ List.replicate 512 7 := by
  exact ⟨emptyVolume, emptyVolume_mount, by decide +kernel, by decide +kernel⟩

end WuBuOS.Fat32
