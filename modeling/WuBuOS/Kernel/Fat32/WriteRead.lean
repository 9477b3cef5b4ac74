import WuBuOS.Kernel.Fat32.Mount
import WuBuOS.Kernel.Fat32.Slots
import WuBuOS.Kernel.Fat32.Stored

/-!
# Writing a file and reading it back

A file is opened with mode `"w"`, written in any number of calls, closed, opened with mode `"r"` and
read in any number of calls.  What is read is what was written, however it was cut into pieces, as long
as no call of `fat32_write` that has something to write begins exactly where a cluster ends.  There the
current cluster of the handle is `0`, and the call does not know the cluster before it: it allocates a
cluster and writes to it, but never puts it in the chain.
-/

namespace WuBuOS.Fat32

open Bytes

/-! ## Sequences of calls -/

/-- Successive calls of `fat32_write`, with what they return. -/
def writeAll : List (List UInt8) → File → M (List Nat × File)
  | [], fp => return ([], fp)
  | src :: srcs, fp => do
    let r ← fat32Write fp src
    let rest ← writeAll srcs r.2
    return (r.1 :: rest.1, rest.2)

/-- Successive calls of `fat32_read`: what they read. -/
def readAll : List Nat → File → Fs → List (List UInt8) × Fs
  | [], _, fs => ([], fs)
  | n :: ns, fp, fs =>
    let r := fat32Read fp n fs
    let rest := readAll ns r.2.1 r.2.2
    (r.1 :: rest.1, rest.2)

/-- Open a file with mode `"w"`, write to it, close it, open it with mode `"r"` and read from it; what the
calls of `fat32_write` return, and what those of `fat32_read` read. -/
def writeThenRead (dir : Nat) (name : List UInt8) (srcs : List (List UInt8)) (ns : List Nat) :
    M (Option (List Nat × List (List UInt8))) := do
  match ← fat32Open dir name .w with
  | none => return none
  | some fp =>
    let written ← writeAll srcs fp
    modify (fat32Close written.2)
    match ← fat32Open dir name .r with
    | none => return none
    | some fp =>
      let bytes ← lift (readAll ns fp)
      return some (written.1, bytes)

/-- A list, cut in pieces of these lengths as far as it goes. -/
def pieces : List Nat → List UInt8 → List (List UInt8)
  | [], _ => []
  | n :: ns, l => l.take n :: pieces ns (l.drop n)

/-- **No call that has something to write begins where a cluster ends**, the first one at position
`pos`, except at the beginning of the file. -/
def StartsInside (size : Nat) : Nat → List (List UInt8) → Prop
  | _, [] => True
  | pos, src :: srcs =>
    (src = [] ∨ pos = 0 ∨ pos % size ≠ 0) ∧ StartsInside size (pos + src.length) srcs

variable {fs fs' : Fs} {fp fp' : File} {cs cs' ds : List Nat} {q : Nat}

/-- A call that begins where the chain ends, and not where a cluster does, begins at the beginning. -/
theorem eq_nil_of_starts {size : Nat} (hsize : 0 < size) (hend : q = cs.length * size) (h : q = 0 ∨ q % size ≠ 0) :
    cs = [] := by
  rcases h with h | h
  · exact List.length_eq_zero_iff.1 ((Nat.mul_eq_zero.mp (hend.symm.trans h)).resolve_right (Nat.ne_of_gt hsize))
  · rw [hend, Nat.mul_mod_left] at h
    exact absurd rfl h

/-- **Every call writes**, and the chain holds what they wrote, one after the other. -/
theorem writeAll_ok {srcs : List (List UInt8)} (h : Stands fs fp cs q) (hmode : fp.writeMode = true)
    (hcs : cs ≠ []) (hq : fp.pos = q) (hpos : fp.pos ≤ fp.fileSize)
    (hstart : StartsInside fs.vol.bytesPerCluster q srcs)
    (hroom : q + srcs.flatten.length ≤ (fs.free.card + cs.length) * fs.vol.bytesPerCluster)
    (hlt : fp.pos + srcs.flatten.length < 2 ^ 32) :
    ∃ cs' fp' fs', writeAll srcs fp fs = some ((srcs.map List.length, fp'), fs') ∧
      Wrote fs fs' fp fp' cs cs' q srcs.flatten := by
  induction srcs generalizing fs fp cs q with
  | nil => exact ⟨cs, fp, fs, rfl, .of_goes (.refl h.sound) h hpos⟩
  | cons src srcs ih =>
    obtain ⟨hfirst, hrest⟩ := hstart
    rw [List.flatten_cons, List.length_append] at hroom hlt
    have hB := h.sound.size_pos
    have hmid : src ≠ [] → q = cs.length * fs.vol.bytesPerCluster → cs = [] := fun hsrc hend =>
      eq_nil_of_starts hB hend (hfirst.resolve_left hsrc)
    obtain ⟨cs1, fp1, fs1, hw, hwrote⟩ := fat32Write_ok h hmode hmid (by omega) hpos (by omega)
    have hsize := hwrote.grows.shape.bytesPerCluster
    have hfree := hwrote.grows.free
    have hcs1 : cs1 ≠ [] := by
      rintro rfl
      exact hcs (List.prefix_nil.1 hwrote.grows.begins)
    obtain ⟨cs', fp', fs', hl, hwrote'⟩ := ih hwrote.stands (hwrote.writeMode.trans hmode) hcs1
      (by rw [hwrote.pos, hq]) (by rw [hwrote.pos, hwrote.fileSize]; omega)
      (by rwa [hsize]) (by rw [hsize, hfree]; omega) (by rw [hwrote.pos]; omega)
    refine ⟨cs', fp', fs', ?_, hwrote.trans hwrote'⟩
    rw [writeAll, bind_run hw, bind_run hl]
    rfl

/-- **Every call reads on** from where the last one stopped. -/
theorem readAll_ok (ns : List Nat) (h : Stands fs fp cs q) (hq : fp.pos = q)
    (hpos : fp.pos ≤ fp.fileSize) (hsize : fp.fileSize ≤ cs.length * fs.vol.bytesPerCluster)
    (hlt : fp.fileSize < 2 ^ 32) (hns : ∀ n ∈ ns, fp.fileSize + n < 2 ^ 64) :
    (readAll ns fp fs).1 = pieces ns (bytesOf (fs.content cs) q (fp.fileSize - q)) := by
  induction ns generalizing fs fp q with
  | nil => rfl
  | cons n ns ih =>
    have hn := hns n List.mem_cons_self
    generalize hk : min n (fp.fileSize - q) = k
    obtain ⟨fs1, hr, hg⟩ := readLoop_along (n := k) h.along (Nat.le_refl k) (.inr rfl) (by omega)
    have hread : fat32Read fp n fs = readLoop k k fp fs := by
      have hmod : (fp.pos + n) % 2 ^ 64 = fp.pos + n := Nat.mod_eq_of_lt (by omega)
      have hrem : (if fp.fileSize < (fp.pos + n) % 2 ^ 64 then (fp.fileSize + 2 ^ 64 - fp.pos) % 2 ^ 64
          else n) = k := by
        rw [hmod]
        split
        · rw [show fp.fileSize + 2 ^ 64 - fp.pos = (fp.fileSize - fp.pos) + 2 ^ 64 by omega,
            Nat.add_mod_right, Nat.mod_eq_of_lt (by omega)]
          omega
        · omega
      simp only [fat32Read, hrem]
    have hst : Stands fs1 (fp.moved fs.vol cs q k) cs (q + k) :=
      (h.moved (by omega)).of_table hg.sound hg.shape hg.table
    have hrest := ih hst (by rw [← hq]; rfl) (show fp.pos + k ≤ fp.fileSize by omega)
      (by rw [hg.shape.bytesPerCluster]; exact hsize) hlt
      fun m hm => hns m (List.mem_cons_of_mem n hm)
    rw [readAll, hread, hr, pieces]
    dsimp only
    rw [hrest, hg.content]
    congr 1
    · rw [← hk, ← bytesOf_take _ _ (Nat.min_le_right n _), List.take_eq_take_iff, bytesOf_length]
      omega
    · congr 1
      show bytesOf _ (q + k) (fp.fileSize - (q + k)) = _
      have hsplit : fp.fileSize - q = k + (fp.fileSize - (q + k)) := by omega
      rw [hsplit, bytesOf_add]
      rcases Nat.lt_or_ge (fp.fileSize - q) n with hlt' | hge
      · -- all of it has been read
        rw [show fp.fileSize - (q + k) = 0 by omega,
          List.drop_eq_nil_of_le (by rw [List.length_append, bytesOf_length, bytesOf_length]; omega)]
        rfl
      · rw [show n = k by omega, List.drop_left' (bytesOf_length ..)]

/-! ## Opening a file for writing -/

variable {dir : Nat} {name : List UInt8}

/-- If there is a file of this name in the directory, its chain is not part of the directory, and it is
the only one. -/
def Replaceable (fs : Fs) (ds : List Nat) (name : List UInt8) : Prop :=
  ∀ info, fs.lookup ds name = some info →
    (∃ cs, Chain fs.vol fs.table info.firstCluster cs ∧ ∀ x ∈ cs, x ∉ ds) ∧
    lookup (entriesPerCluster fs.vol)
      (Function.update fs.data info.dirCluster
        (fs.vol.clip (deletedBuf (fs.data info.dirCluster) info.dirOffset))) name ds noLfn = none

/-- After a file of the name has been deleted, if there was one, there is none. -/
theorem deleteIfFound_ok {fs0 : Fs} (hmounted : fs.vol.mounted = true)
    (hch : Chain fs.vol fs.table (dirOrRoot fs.vol dir) ds) (hrep : Replaceable fs ds name)
    (hg0 : Goes fs fs0 fs.table fs.data) :
    ∃ fs', deleteIfFound (fs.lookup ds name) (dirOrRoot fs.vol dir) name fs0 = some ((), fs') ∧
      Sound fs' ∧ SameShape fs.vol fs'.vol ∧ Chain fs'.vol fs'.table (dirOrRoot fs.vol dir) ds ∧
      fs'.lookup ds name = none := by
  have hlook0 : fs0.lookup ds name = fs.lookup ds name :=
    Fs.lookup_congr hg0.shape fun x _ => by rw [hg0.data]
  cases hlook : fs.lookup ds name with
  | none => exact ⟨fs0, rfl, hg0.sound, hg0.shape, hg0.chain hch, hlook0.trans hlook⟩
  | some info =>
    obtain ⟨⟨cs, hcs, hapart⟩, hnone⟩ := hrep info hlook
    have hch0 : Chain fs0.vol fs0.table (dirOrRoot fs0.vol (dirOrRoot fs.vol dir)) ds := by
      rw [hg0.shape.dirOrRoot, dirOrRoot_dirOrRoot]
      exact hg0.chain hch
    obtain ⟨fs', hd, hg⟩ := fat32Delete_ok hg0.sound (hg0.shape.mounted.trans hmounted) hch0
      (hlook0.trans hlook) (hg0.chain hcs)
    rw [hg0.table, hg0.data] at hg
    have hgg := hg0.trans hg
    refine ⟨fs', ?_, hg.sound, hgg.shape, ?_, ?_⟩
    · rw [deleteIfFound]
      exact bind_run hd
    · refine hch.congr hgg.shape fun x hx => ?_
      rw [hg.table, freedTable, if_neg fun hmem => hapart x hmem hx]
    · rw [Fs.lookup, hgg.shape.entriesPerCluster, hg.data, ← hnone, hg0.shape.clip]

/-- A new entry has a cluster, and a slot that says so. -/
theorem Creates.isFile {attr : Nat} {info' : FileInfo} (info : FileInfo) (hs : Sound fs)
    (hmounted : fs.vol.mounted = true) (hch : Chain fs.vol fs.table (dirOrRoot fs.vol dir) ds)
    (hnone : fs.lookup ds name = none) (h : Creates fs fs' dir ds name attr (some info')) :
    ∃ ds', SameShape fs.vol fs'.vol ∧ Chain fs'.vol fs'.table (dirOrRoot fs'.vol dir) ds' ∧ Sound fs' ∧
      (fs'.lookup ds' name = some info → info.dirCluster = info'.dirCluster → info.dirOffset = info'.dirOffset →
        info.firstCluster = info'.firstCluster ∧ IsFile fs' dir name ds' info [info'.firstCluster]) := by
  rcases h with ⟨hr, -⟩ | ⟨-, new, fs1, hnew, hg1, ds', fs2, hgr, hcase⟩
  · rw [hnone] at hr
    cases hr
  obtain ⟨hnv, hn0⟩ := Fs.mem_free.1 hnew
  obtain ⟨h0, -⟩ | ⟨dc, i, now, hplace, hinfo, hg⟩ := hcase
  · cases h0
  cases hinfo
  have hnot : new ∉ ds := fun hmem => hch.used new hmem hn0
  have hent : fs1.table new = clusterEoc := by rw [hg1.table, Function.update_self]
  have hent0 : fs1.table new ≠ 0 := by
    rw [hent]
    decide
  have hshape := (hg1.shape.trans hgr.shape).trans hg.shape
  have hnot' : new ∉ ds' := hgr.not_mem hent0 hnot
  rw [List.drop_zero, hg1.shape.entriesPerCluster] at hplace
  obtain ⟨hdc, hslot, -⟩ := place_free hplace
  have hchain : Chain fs'.vol fs'.table new [new] := by
    obtain ⟨-, hch1⟩ := hg1.took hnew fun _ _ => rfl
    refine hg.chain (hch1.congr hgr.shape fun x hx => ?_)
    rw [List.mem_singleton.1 hx]
    exact hgr.table new hent0 hnot
  have hdir : Chain fs'.vol fs'.table (dirOrRoot fs'.vol dir) ds' := by
    rw [hshape.dirOrRoot]
    exact hg.chain hgr.chain
  refine ⟨ds', hshape, hdir, hg.sound, fun hfound hc ho => ?_⟩
  obtain ⟨-, -, ⟨hfirst, hsize⟩, -⟩ := lookup_spec fs'.data hdir.list.nodup hfound
  have hbuf : fs'.data dc = fs2.vol.clip (placedBuf (fs2.data dc) name attr new i now) := by
    rw [hg.data, Function.update_self]
  have hcluster : info.firstCluster = new := by
    rw [hfirst, hc, ho]
    show slotField (fs'.data dc) (i + _) 20 2 * 2 ^ 16 + slotField (fs'.data dc) (i + _) 26 2 = new
    rw [hbuf]
    refine (placedBuf_slots now (hnv.2.trans_le (hs.clusters.trans (by decide))) ?_).entry
    rwa [(hg1.shape.trans hgr.shape).entriesPerCluster]
  refine ⟨hcluster, hg.sound, hshape.mounted.trans hmounted, hdir, hfound, ?_, ?_, ?_⟩
  · rw [hcluster]
    exact hchain
  · intro x hx
    rw [List.mem_singleton.1 hx]
    exact hnot'
  · rw [hsize]
    exact get_lt _ _ 4

/-- **A file opened for writing** has one cluster of its own; it is found under its name if the entry that
is found is its own. -/
theorem fat32Open_w {fs1 fs2 : Fs} {info : FileInfo} (hs : Sound fs) (hmounted : fs.vol.mounted = true)
    (hch : Chain fs.vol fs.table (dirOrRoot fs.vol dir) ds) (hne : ds ≠ []) (hrep : Replaceable fs ds name)
    (hopen : fat32Open dir name .w fs = some (some fp, fs1))
    (hfind : fat32Find dir name fs1 = some (some info, fs2)) (hdc : info.dirCluster = fp.dirCluster)
    (hdo : info.dirOffset = fp.dirOffset) :
    ∃ ds', IsFile fs1 dir name ds' info [fp.firstCluster] ∧ SameShape fs.vol fs1.vol ∧
      info.firstCluster = fp.firstCluster ∧ fp.currentCluster = fp.firstCluster ∧ fp.pos = 0 ∧
      fp.fileSize = 0 ∧ fp.writeMode = true := by
  obtain ⟨fs3, hf, hg3⟩ := fat32Find_dirOrRoot name hs hch
  obtain ⟨fs4, hd, hs4, hshape4, hch4, hnone⟩ := deleteIfFound_ok hmounted hch hrep hg3
  rw [fat32Open, bind_run (get_run _), if_neg (by rw [hmounted]; decide), bind_run (get_run _), bind_run hf] at hopen
  have hnew : openNew (dirOrRoot fs.vol dir) name fs4 = some (some fp, fs1) :=
    (bind_run hd).symm.trans hopen
  obtain ⟨r, fs5, hcreate, hret⟩ := bind_inv hnew
  obtain ⟨hmap, rfl⟩ : r.map (fun info => openInfo info 0 true) = some fp ∧ fs5 = fs1 := by
    simpa using (show some (r.map fun info => openInfo info 0 true, fs5) = some (some fp, fs1) from hret)
  obtain ⟨info', rfl, rfl⟩ := Option.map_eq_some_iff.1 hmap
  have hname : name ≠ [] := by
    rintro rfl
    rw [fat32Create, bind_run (get_run _), if_pos (Or.inr rfl)] at hcreate
    cases hcreate
  have hmounted4 := hshape4.mounted.trans hmounted
  have hdir4 : Chain fs4.vol fs4.table (dirOrRoot fs4.vol (dirOrRoot fs.vol dir)) ds := by
    rw [hshape4.dirOrRoot, dirOrRoot_dirOrRoot]
    exact hch4
  have hspec := fat32Create_spec hs4 hmounted4 (by decide) hdir4 hne hname hcreate
  obtain ⟨ds', hshape, hdir, hs5, hfile⟩ :=
    Creates.isFile info hs4 hmounted4 hdir4 hnone hspec
  have hdir' : Chain fs5.vol fs5.table (dirOrRoot fs5.vol dir) ds' := by
    rwa [(hshape4.trans hshape).dirOrRoot, dirOrRoot_dirOrRoot, ← (hshape4.trans hshape).dirOrRoot] at hdir
  obtain ⟨fs6, hf6, -⟩ := fat32Find_ok name hs5 hdir'
  have hlook : fs5.lookup ds' name = some info := by
    have := hf6.symm.trans hfind
    simp only [Option.some.injEq, Prod.mk.injEq] at this
    exact this.1
  obtain ⟨hfirst, hisFile⟩ := hfile hlook hdc hdo
  exact ⟨ds', { hisFile with dir := hdir' }, hshape4.trans hshape, hfirst, rfl, rfl, rfl, rfl⟩

/-! ## The file as it is read back -/

/-- **What is written is read back.**  A file is opened with mode `"w"` in a directory of a sound volume
and is found there under its name; then, if there are enough free clusters and no call begins where a
cluster ends: every call of `fat32_write` writes all of its bytes, and after the file has been closed
and opened again, any calls of `fat32_read` read these bytes, one after the other, as far as they go. -/
theorem write_read {srcs : List (List UInt8)} {ns : List Nat} {fs₁ fs₂ : Fs} {info : FileInfo}
    (hs : Sound fs) (hmounted : fs.vol.mounted = true)
    (hch : Chain fs.vol fs.table (dirOrRoot fs.vol dir) ds) (hne : ds ≠ []) (hrep : Replaceable fs ds name)
    (hopen : fat32Open dir name .w fs = some (some fp, fs₁))
    (hfind : fat32Find dir name fs₁ = some (some info, fs₂)) (hdc : info.dirCluster = fp.dirCluster)
    (hdo : info.dirOffset = fp.dirOffset)
    (hroom : srcs.flatten.length ≤ (fs₁.free.card + 1) * fs.vol.bytesPerCluster)
    (hlt : srcs.flatten.length < 2 ^ 32) (hns : ∀ n ∈ ns, srcs.flatten.length + n < 2 ^ 64)
    (hstart : StartsInside fs.vol.bytesPerCluster 0 srcs) :
    (writeThenRead dir name srcs ns fs).map Prod.fst = some (some (srcs.map List.length, pieces ns srcs.flatten)) := by
  obtain ⟨ds', hfile, hshape, hfirst, hcur, hpos, hsize, hmode⟩ :=
    fat32Open_w hs hmounted hch hne hrep hopen hfind hdc hdo
  have hB := hshape.bytesPerCluster
  have hst : Stands fs₁ fp [fp.firstCluster] 0 := by
    refine ⟨hfile.sound, hfirst ▸ hfile.chain, ?_, Nat.zero_le _, by rw [hpos]⟩
    rw [Nat.zero_div, hcur]
    rfl
  obtain ⟨cs', fp', fs₃, hw, hwrote⟩ := writeAll_ok hst hmode (List.cons_ne_nil _ _) hpos
    (by rw [hpos]; exact Nat.zero_le _) (by rwa [hB])
    (by rw [hB, Nat.zero_add]; exact hroom) (by rwa [hpos, Nat.zero_add])
  have hfs : fp'.fileSize = srcs.flatten.length := by
    rw [hwrote.fileSize, hsize, hpos, Nat.zero_add]
    exact Nat.max_eq_right (Nat.zero_le _)
  have hne' : cs' ≠ [] := by
    rintro rfl
    exact absurd (List.prefix_nil.1 hwrote.grows.begins) (List.cons_ne_nil _ _)
  obtain ⟨hclosed, hshape', hcont⟩ := hfile.close hwrote hmode hfirst.symm hdc.symm hdo.symm
    (by rwa [hfs]) hne'
  rw [if_neg (List.cons_ne_nil _ _)] at hclosed
  obtain ⟨fs₄, hr, hg₄⟩ := hclosed.open_r
  have hst₄ := (hclosed.of_goes hg₄).stands_openInfo fp'.fileSize false
  have hplace := hwrote.stands.place
  rw [Nat.zero_add, hwrote.grows.shape.bytesPerCluster] at hplace
  have hB₄ : fs₄.vol.bytesPerCluster = fs₁.vol.bytesPerCluster :=
    hg₄.shape.bytesPerCluster.trans hshape'.bytesPerCluster
  have hread := readAll_ok ns hst₄ rfl (Nat.zero_le _)
    (by rw [hB₄]; exact hfs ▸ hplace) (hfs ▸ hlt) (fun n hn => hfs ▸ hns n hn)
  have hbytes : bytesOf (fs₄.content cs') 0 srcs.flatten.length = srcs.flatten := by
    refine bytesOf_getD fun k hk => ?_
    rw [hg₄.content, hcont _ (by omega), hwrote.content _ (Or.inr (by omega)), write_inside hk]
  have hbytes' : bytesOf (fs₄.content cs') 0 ((openInfo { info with fileSize := fp'.fileSize }
      fp'.fileSize false).fileSize - 0) = srcs.flatten := by
    rw [← hbytes]
    show bytesOf _ 0 (fp'.fileSize - 0) = bytesOf _ 0 srcs.flatten.length
    rw [hfs, Nat.sub_zero]
  rw [hbytes'] at hread
  rw [writeThenRead, bind_run hopen]
  dsimp only
  rw [bind_run hw, bind_run (modify_run _ _), bind_run hr]
  dsimp only
  rw [bind_run (show lift (readAll ns _) fs₄ = some _ from rfl)]
  show some (some (srcs.map List.length, (readAll ns _ fs₄).1)) = _
  rw [hread]

/-- A disk with an empty root directory, on a device of 100 sectors that never fails. -/
def emptyFs : Fs := ⟨zeroVolume, put tinyDisk 520 4 clusterEoc, fun _ => ⟨true, fun _ => 0⟩⟩

/-- The volume on it. -/
def emptyVolume : Fs := (fat32Mount 100 emptyFs).2

theorem emptyVolume_mount : fat32Mount 100 emptyFs = (true, emptyVolume) :=
  Prod.ext (by decide) rfl

theorem emptyVolume_shape : emptyVolume.vol.totalClusters = 99 ∧ emptyVolume.vol.sectorsPerFat = 1 ∧
    emptyVolume.vol.bytesPerCluster = 512 ∧ emptyVolume.vol.mounted = true ∧
    dirOrRoot emptyVolume.vol 0 = 2 := by
  decide

theorem emptyVolume_sound : Sound emptyVolume := by
  obtain ⟨htot, hfat, -⟩ := emptyVolume_shape
  exact sound_of_hundred emptyVolume_mount (fun _ => rfl) ⟨htot, hfat⟩

theorem emptyVolume_chain : Chain emptyVolume.vol emptyVolume.table (dirOrRoot emptyVolume.vol 0) [2] := by
  obtain ⟨htot, -, -, -, hroot⟩ := emptyVolume_shape
  rw [hroot]
  exact .singleton ⟨Nat.le_refl 2, by rw [htot]; decide⟩ (by decide)

theorem emptyVolume_replaceable : Replaceable emptyVolume [2] [65] := by
  intro info hinfo
  rw [show emptyVolume.lookup [2] [65] = none by decide] at hinfo
  cases hinfo

theorem open_of_check {f : File} {info : FileInfo} (h : ((fat32Open 0 [65] .w fs).bind fun r =>
      (fat32Find 0 [65] r.2).map fun q => (r.1, q.1)) = some (some f, some info)) :
    ∃ fs1 fs2, fat32Open 0 [65] .w fs = some (some f, fs1) ∧ fat32Find 0 [65] fs1 = some (some info, fs2) := by
  obtain ⟨⟨_, fs1⟩, hopen, h⟩ := Option.bind_eq_some_iff.1 h
  obtain ⟨⟨_, fs2⟩, hfind, h⟩ := Option.map_eq_some_iff.1 h
  obtain ⟨rfl, rfl⟩ := Prod.mk.inj h
  exact ⟨fs1, fs2, hopen, hfind⟩

theorem emptyVolume_open : ∃ fs1 fs2,
    fat32Open 0 [65] .w emptyVolume = some (some ⟨3, 3, 0, 0x20, 0, true, 2, 0⟩, fs1) ∧
      fat32Find 0 [65] fs1 = some (some ⟨[65], 3, 0, 0x20, 2, 0⟩, fs2) :=
  open_of_check (by decide +kernel)

theorem write_read_empty : ∃ m, fat32Mount 100 emptyFs = (true, m) ∧
      (writeThenRead 0 [65] [[1, 2], [], [3]] [2, 5] m).map Prod.fst = some (some ([2, 0, 1], [[1, 2], [3]])) := by
  obtain ⟨-, -, hB, hmounted, -⟩ := emptyVolume_shape
  obtain ⟨fs₁, fs₂, hopen, hfind⟩ := emptyVolume_open
  refine ⟨emptyVolume, emptyVolume_mount, write_read emptyVolume_sound hmounted emptyVolume_chain
    (List.cons_ne_nil _ _) emptyVolume_replaceable hopen hfind rfl rfl ?_ (by decide) (by decide) ?_⟩
  · rw [hB, Nat.add_mul]
    exact Nat.le_add_left_of_le (by decide)
  · rw [hB]
    exact ⟨Or.inr (Or.inl rfl), Or.inl rfl, Or.inr (Or.inr (by decide)), trivial⟩

/-- **A chunk that ends where a cluster ends.**  The byte after it is written to a cluster that is not
in the chain, and cannot be read back. -/
theorem write_read_cluster_end : ∃ m, fat32Mount 100 emptyFs = (true, m) ∧
      (writeThenRead 0 [65] [List.replicate 512 7, [1]] [513] m).map Prod.fst =
        some (some ([512, 1], [List.replicate 512 7])) ∧
      pieces [513] [List.replicate 512 7, [1]].flatten ≠ [List.replicate 512 7] := by
  exact ⟨emptyVolume, emptyVolume_mount, by decide +kernel, by decide +kernel⟩

end WuBuOS.Fat32
