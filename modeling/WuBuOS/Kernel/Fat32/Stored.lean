import WuBuOS.Kernel.Fat32.Content
import WuBuOS.Kernel.Fat32.Lookup

/-!
# Files that are stored in a directory

`IsFile fs dir name ds info cs` says that looking for a name in a directory finds an entry, and which
clusters the directory and the file have.  `readFile` reads the whole of a file; what it returns are the
bytes of its chain, as many as its size says and the chain has (`IsFile.readFile`).  After a file has
been written to and closed it is stored with its new size (`IsFile.close`).
-/

namespace WuBuOS.Fat32

open Bytes

/-- There is a file of this name in the directory with the clusters `ds`, and its clusters are `cs`. -/
structure IsFile (fs : Fs) (dir : Nat) (name : List UInt8) (ds : List Nat) (info : FileInfo)
    (cs : List Nat) : Prop where
  sound : Sound fs
  mounted : fs.vol.mounted = true
  dir : Chain fs.vol fs.table (dirOrRoot fs.vol dir) ds
  found : fs.lookup ds name = some info
  chain : Chain fs.vol fs.table info.firstCluster cs
  apart : ∀ x ∈ cs, x ∉ ds
  size : info.fileSize < 2 ^ 32

variable {fs fs' : Fs} {dir : Nat} {name : List UInt8} {ds cs cs' : List Nat} {info : FileInfo}
  {fp fp' : File} {q : Nat} {src : List UInt8}

theorem IsFile.of_goes (h : IsFile fs dir name ds info cs) (hg : Goes fs fs' fs.table fs.data) :
    IsFile fs' dir name ds info cs where
  sound := hg.sound
  mounted := hg.shape.mounted.trans h.mounted
  dir := by rw [hg.shape.dirOrRoot]; exact hg.chain h.dir
  found := (Fs.lookup_congr hg.shape fun x _ => by rw [hg.data]).trans h.found
  chain := hg.chain h.chain
  apart := h.apart
  size := h.size

/-- Opening a file begins with finding it. -/
theorem IsFile.find (h : IsFile fs dir name ds info cs) :
    ∃ fs', fat32Find (dirOrRoot fs.vol dir) name fs = some (some info, fs') ∧ Goes fs fs' fs.table fs.data := by
  have hdir : Chain fs.vol fs.table (dirOrRoot fs.vol (dirOrRoot fs.vol dir)) ds := by
    rw [dirOrRoot_dirOrRoot]
    exact h.dir
  obtain ⟨fs', hf, hg⟩ := fat32Find_ok name h.sound hdir
  rw [h.found] at hf
  exact ⟨fs', hf, hg⟩

theorem IsFile.open_r (h : IsFile fs dir name ds info cs) :
    ∃ fs', fat32Open dir name .r fs = some (some (openInfo info info.fileSize false), fs') ∧
      Goes fs fs' fs.table fs.data := by
  obtain ⟨fs', hf, hg⟩ := h.find
  refine ⟨fs', ?_, hg⟩
  rw [fat32Open, bind_run (get_run _), if_neg (by rw [h.mounted]; decide), bind_run (get_run _), bind_run hf]
  rfl

/-- A handle at the beginning of the file. -/
theorem IsFile.stands_openInfo (h : IsFile fs dir name ds info cs) (size : Nat) (mode : Bool) :
    Stands fs (openInfo info size mode) cs 0 where
  sound := h.sound
  chain := h.chain
  current := by
    rw [Nat.zero_div]
    cases cs with
    | nil => exact h.chain.list
    | cons x cs => exact h.chain.head
  place := Nat.zero_le _
  offset := rfl

/-- What a file holds: open it, and read as many bytes as its size says. -/
def readFile (dir : Nat) (name : List UInt8) : M (Option (List UInt8)) := do
  match ← fat32Open dir name .r with
  | none => return none
  | some fp =>
    lift fun fs =>
      let r := fat32Read fp fp.fileSize fs
      (some r.1, r.2.2)

/-- A file read from its beginning, as many bytes as its size says. -/
theorem fat32Read_whole (info : FileInfo) (fs : Fs) :
    fat32Read (openInfo info info.fileSize false) (openInfo info info.fileSize false).fileSize fs =
      readLoop info.fileSize info.fileSize (openInfo info info.fileSize false) fs := by
  rw [fat32Read, if_neg]
  · rfl
  show ¬info.fileSize < (0 + info.fileSize) % 2 ^ 64
  rw [Nat.zero_add]
  exact Nat.not_lt.2 (Nat.mod_le _ _)

theorem IsFile.readFile (h : IsFile fs dir name ds info cs) : ∃ fs', Fat32.readFile dir name fs =
        some (some (bytesOf (fs.content cs) 0
          (min info.fileSize (cs.length * fs.vol.bytesPerCluster))), fs') ∧
      Goes fs fs' fs.table fs.data := by
  obtain ⟨fs1, ho, hg1⟩ := h.open_r
  have hst := (h.of_goes hg1).stands_openInfo info.fileSize false
  obtain ⟨fs2, hr, hg2⟩ := readLoop_along hst.along (Nat.le_refl info.fileSize) (.inr rfl) rfl
  refine ⟨fs2, ?_, hg1.on hg2⟩
  rw [Fat32.readFile, bind_run ho]
  refine lift_run ?_
  rw [fat32Read_whole, hr, hg1.content, Nat.sub_zero, hg1.shape.bytesPerCluster]

/-! ## Closing a file that has been written -/

/-- The directory is not touched by what is written. -/
theorem IsFile.lookup_wrote (h : IsFile fs dir name ds info cs) (hg : Grows fs fs' cs cs') :
    fs'.lookup ds name = some info ∧ Chain fs'.vol fs'.table (dirOrRoot fs'.vol dir) ds ∧ ∀ x ∈ cs', x ∉ ds := by
  have hnot : ∀ x ∈ ds, x ∉ cs := fun x hx hx' => h.apart x hx' hx
  refine ⟨?_, ?_, fun x hx hd => ?_⟩
  · rw [Fs.lookup_congr hg.shape fun x hx => hg.data x (h.dir.used x hx) (hnot x hx)]
    exact h.found
  · rw [hg.shape.dirOrRoot]
    exact h.dir.congr hg.shape fun x hx => hg.table x (h.dir.used x hx) (hnot x hx)
  · exact h.dir.used x hd (hg.fresh x hx (hnot x hd))

/-- **A file that has been written to, closed.**  It has its new size and holds what was written,
unless it had no cluster: the one it got is not stored in its entry. -/
theorem IsFile.close (h : IsFile fs dir name ds info cs) (hw : Wrote fs fs' fp fp' cs cs' q src)
    (hmode : fp.writeMode = true) (hfirst : fp.firstCluster = info.firstCluster)
    (hdc : fp.dirCluster = info.dirCluster) (hdo : fp.dirOffset = info.dirOffset)
    (hsize : fp'.fileSize < 2 ^ 32) (hne : cs' ≠ []) :
    IsFile (fat32Close fp' fs') dir name ds { info with fileSize := fp'.fileSize }
        (if cs = [] then [] else cs') ∧
      SameShape fs.vol (fat32Close fp' fs').vol ∧
      ∀ x < cs'.length * fs.vol.bytesPerCluster, (fat32Close fp' fs').content cs' x = fs'.content cs' x := by
  obtain ⟨hfound, hdir, hapart⟩ := h.lookup_wrote hw.grows
  obtain ⟨hmem, -⟩ := lookup_spec fs.data h.dir.list.nodup h.found
  have hdc' : fp'.dirCluster = info.dirCluster := hw.dirCluster.trans hdc
  have hdir2 : 2 ≤ fp'.dirCluster := by
    rw [hdc']
    exact (h.dir.inVolume _ hmem).1
  have hfirst2 : 2 ≤ fp'.firstCluster := by
    obtain ⟨x, l, rfl⟩ := List.exists_cons_of_ne_nil hne
    rw [hw.stands.chain.head]
    exact (hw.stands.chain.inVolume x List.mem_cons_self).1
  have hmode' := hw.writeMode.trans hmode
  have hs' := hw.stands.sound
  obtain ⟨now, hg⟩ := fat32Close_ok hs' hmode' hfirst2 hdir2
  have hlook := lookup_close hs' h.dir.list.nodup hmode' hfirst2 hdir2 hfound hdc'.symm
    (hdo.symm.trans hw.dirOffset.symm)
  rw [Nat.mod_eq_of_lt hsize] at hlook
  have hshape := hw.grows.shape.trans hg.shape
  refine ⟨⟨hg.sound, hshape.mounted.trans h.mounted, ?_, hlook, ?_, fun x hx => ?_, hsize⟩, hshape, fun x hx => ?_⟩
  · rw [hg.shape.dirOrRoot]
    exact hg.chain hdir
  · split
    · rename_i hcs
      subst hcs
      exact ⟨h.chain.list, by simp, by simp⟩
    · rename_i hcs
      have := hg.chain hw.stands.chain
      rwa [hw.firstCluster hcs, hfirst] at this
  · split at hx
    · exact absurd hx List.not_mem_nil
    · exact hapart x hx
  · rw [Fs.content, Fs.content, hg.shape.bytesPerCluster, hw.grows.shape.bytesPerCluster, hg.data]
    refine Blocks.flat_congr (fun c hc => ?_) hx
    rw [Function.update_of_ne]
    rintro rfl
    exact hapart _ hc (hdc' ▸ hmem)

end WuBuOS.Fat32
