import WuBuOS.Kernel.Fat32.Chain
import WuBuOS.Kernel.Fat32.File
import WuBuOS.Lib.Blocks

/-!
# What reading and writing do to a file

`fs.content cs` is what the clusters `cs` hold, one after the other.  A handle `Stands` at a place `q`
of its chain: its current cluster is the one that `q` is in, or `0` if `q` is where the chain ends.
What the position has to do with it is only that it has the same offset in a cluster.  That they can be
different is what goes wrong in `fat32_open` and `fat32_seek`, so nothing here assumes that they are
equal.

Reading takes bytes from `q` on, as far as the chain goes.  Writing puts bytes at `q` and adds
clusters to the chain as it needs them: `Wrote`.  The one thing the loop relies on is that `prev` is the
last cluster when `q` is where the chain ends.
-/

namespace WuBuOS.Fat32

open Bytes

variable {fs fs' fs'' : Fs} {fp fp' fp'' : File} {cs cs' cs'' : List Nat} {e q n : Nat}

/-! ## Lists of bytes -/

theorem bytesOf_length (buf : Buf) (i n : Nat) : (bytesOf buf i n).length = n := by
  rw [bytesOf, List.length_map, List.length_range]

theorem bytesOf_congr {buf buf' : Buf} {i i' : Nat} (h : ∀ k < n, buf' (i' + k) = buf (i + k)) :
    bytesOf buf' i' n = bytesOf buf i n :=
  List.map_congr_left fun k hk => h k (List.mem_range.1 hk)

theorem bytesOf_add (buf : Buf) (i n k : Nat) : bytesOf buf i (n + k) = bytesOf buf i n ++ bytesOf buf (i + n) k := by
  rw [bytesOf, List.range_add, List.map_append, List.map_map]
  refine congrArg (bytesOf buf i n ++ ·) (List.map_congr_left fun k _ => ?_)
  rw [Function.comp_apply, Nat.add_assoc]

/-- The bytes of a list, in a buffer. -/
theorem bytesOf_getD {buf : Buf} {i : Nat} {l : List UInt8}
    (h : ∀ k < l.length, buf (i + k) = l.getD k 0) : bytesOf buf i l.length = l := by
  refine List.ext_getElem (bytesOf_length ..) fun k hk hk' => ?_
  simp only [bytesOf, List.getElem_map, List.getElem_range]
  rw [h k hk', List.getD_eq_getElem _ _ hk']

theorem bytesOf_take_min (buf : Buf) (i n k : Nat) : (bytesOf buf i n).take k = bytesOf buf i (min k n) := by
  rw [bytesOf, ← List.map_take, List.take_range]
  rfl

theorem bytesOf_take (buf : Buf) (i : Nat) {n k : Nat} (h : k ≤ n) : (bytesOf buf i n).take k = bytesOf buf i k := by
  rw [bytesOf_take_min, Nat.min_eq_left h]

/-! ## Where a handle stands -/

/-- What the clusters of a chain hold. -/
def Fs.content (fs : Fs) (cs : List Nat) : Buf := Blocks.flat fs.vol.bytesPerCluster fs.data 0 cs

/-- The handle stands at a place of its chain. -/
structure Stands (fs : Fs) (fp : File) (cs : List Nat) (q : Nat) : Prop where
  sound : Sound fs
  chain : Chain fs.vol fs.table fp.firstCluster cs
  current : fp.currentCluster = cs.getD (q / fs.vol.bytesPerCluster) 0
  place : q ≤ cs.length * fs.vol.bytesPerCluster
  offset : fp.pos % fs.vol.bytesPerCluster = q % fs.vol.bytesPerCluster

theorem Sound.size_pos (h : Sound fs) : 0 < fs.vol.bytesPerCluster := by
  rw [h.bytesPerCluster]
  exact Nat.mul_pos h.sectorsPerCluster (by decide)

theorem div_lt_length (hq : q < cs.length * n) : q / n < cs.length :=
  Nat.div_lt_of_lt_mul (by rwa [Nat.mul_comm] at hq)

/-- The handle stands at a place of these clusters; each is linked to the next, and the last one to `e`. -/
structure Along (fs : Fs) (fp : File) (cs : List Nat) (e q : Nat) : Prop where
  sound : Sound fs
  inVolume : ∀ c ∈ cs, InVolume fs.vol c
  next : ∀ i < cs.length, nextOf fs.table (cs.getD i e) = cs.getD (i + 1) e
  current : fp.currentCluster = cs.getD (q / fs.vol.bytesPerCluster) e
  place : q ≤ cs.length * fs.vol.bytesPerCluster
  offset : fp.pos % fs.vol.bytesPerCluster = q % fs.vol.bytesPerCluster

theorem Stands.along (h : Stands fs fp cs q) : Along fs fp cs 0 q :=
  ⟨h.sound, h.chain.inVolume, fun _ hi => h.chain.list.next_getD hi, h.current, h.place, h.offset⟩

theorem Along.isIn (h : Along fs fp cs e q) (hq : q < cs.length * fs.vol.bytesPerCluster) :
    InVolume fs.vol fp.currentCluster := by
  rw [h.current, List.getD_eq_getElem _ _ (div_lt_length hq)]
  exact h.inVolume _ (List.getElem_mem _)

/-- At the end there is what the last one is linked to. -/
theorem Along.current_eq (h : Along fs fp cs e q) (hq : q = cs.length * fs.vol.bytesPerCluster) :
    fp.currentCluster = e := by
  rw [h.current, hq, Nat.mul_div_cancel _ h.sound.size_pos, List.getD_eq_default _ _ (Nat.le_refl _)]

/-- The volume changes, but not the links. -/
theorem Along.of_table (h : Along fs fp cs e q) (hs : Sound fs') (hshape : SameShape fs.vol fs'.vol)
    (ht : fs'.table = fs.table) : Along fs' fp cs e q where
  sound := hs
  inVolume c hc := hshape.inVolume.2 (h.inVolume c hc)
  next := by rw [ht]; exact h.next
  current := by rw [hshape.bytesPerCluster]; exact h.current
  place := by rw [hshape.bytesPerCluster]; exact h.place
  offset := by rw [hshape.bytesPerCluster]; exact h.offset

/-- Short of the end of the chain there is a cluster. -/
theorem Stands.current_mem (h : Stands fs fp cs q) (hq : q < cs.length * fs.vol.bytesPerCluster) :
    fp.currentCluster ∈ cs := by
  rw [h.current, List.getD_eq_getElem _ _ (div_lt_length hq)]
  exact List.getElem_mem _

theorem Stands.inVolume (h : Stands fs fp cs q) (hq : q < cs.length * fs.vol.bytesPerCluster) :
    InVolume fs.vol fp.currentCluster :=
  h.along.isIn hq

/-- At the end of the chain there is none. -/
theorem Stands.current_eq_zero (h : Stands fs fp cs q) (hq : q = cs.length * fs.vol.bytesPerCluster) :
    fp.currentCluster = 0 :=
  h.along.current_eq hq

theorem Goes.content (h : Goes fs fs' fs.table fs.data) : fs'.content cs = fs.content cs := by
  rw [Fs.content, Fs.content, h.shape.bytesPerCluster, h.data]

/-- The volume changes, but not the chain. -/
theorem Stands.of_table (h : Stands fs fp cs q) (hs : Sound fs') (hshape : SameShape fs.vol fs'.vol)
    (ht : fs'.table = fs.table) : Stands fs' fp cs q := by
  obtain ⟨-, -, -, hcurrent, hplace, hoffset⟩ := h.along.of_table hs hshape ht
  exact ⟨hs, h.chain.congr hshape fun _ _ => by rw [ht], hcurrent, hplace, hoffset⟩

/-- A handle that has been moved on. -/
def File.moved (fp : File) (vol : Volume) (cs : List Nat) (q n : Nat) (e : Nat := 0) : File :=
  { fp with pos := fp.pos + n, currentCluster := cs.getD ((q + n) / vol.bytesPerCluster) e }

theorem Along.moved (h : Along fs fp cs e q) (hn : q + n ≤ cs.length * fs.vol.bytesPerCluster) :
    Along fs (fp.moved fs.vol cs q n e) cs e (q + n) where
  sound := h.sound
  inVolume := h.inVolume
  next := h.next
  current := rfl
  place := hn
  offset := by
    show (fp.pos + n) % _ = _
    rw [Nat.add_mod, h.offset, ← Nat.add_mod]

theorem Stands.moved (h : Stands fs fp cs q) (hn : q + n ≤ cs.length * fs.vol.bytesPerCluster) :
    Stands fs (fp.moved fs.vol cs q n) cs (q + n) :=
  ⟨h.sound, h.chain, rfl, hn, (h.along.moved hn).offset⟩

/-- **Moving on within a cluster, or to the next one.** -/
theorem advance_ok (h : Along fs fp cs e q) (hq : q < cs.length * fs.vol.bytesPerCluster)
    (hn : q % fs.vol.bytesPerCluster + n ≤ fs.vol.bytesPerCluster) :
    ∃ fs', advance fp n fs = (fp.moved fs.vol cs q n e, fs') ∧ Goes fs fs' fs.table fs.data := by
  rw [advance, h.offset]
  by_cases hfull : fs.vol.bytesPerCluster ≤ q % fs.vol.bytesPerCluster + n
  · obtain ⟨fs', hr, hg⟩ := fat32NextCluster_goes h.sound (h.isIn hq)
    refine ⟨fs', ?_, hg⟩
    have hdiv := (Blocks.div_mod_full h.sound.size_pos (Nat.le_antisymm hn hfull)).1
    have hnext : nextOf fs.table fp.currentCluster = cs.getD (q / fs.vol.bytesPerCluster + 1) e := by
      rw [h.current]
      exact h.next _ (div_lt_length hq)
    simp only [if_pos hfull, hr, File.moved, hdiv, hnext]
  · refine ⟨fs, ?_, .refl h.sound⟩
    have hdiv := (Blocks.div_mod_add (Nat.not_le.1 hfull)).1
    simp only [if_neg hfull, File.moved, hdiv, h.current]

/-! ## Reading -/

/-- A read within a cluster. -/
theorem readPart_data {c pos : Nat} (hs : Sound fs) (hc : 2 ≤ c) (n : Nat) :
    ∃ fs', readPart c pos n fs = (some (bytesOf (fs.data c) (pos % fs.vol.bytesPerCluster) n), fs') ∧
      Goes fs fs' fs.table fs.data := by
  rw [readPart]
  by_cases hwhole : pos % fs.vol.bytesPerCluster = 0 ∧ n = fs.vol.bytesPerCluster
  · obtain ⟨hr, hg⟩ := readCluster_ok hs hc
    refine ⟨_, ?_, hg⟩
    simp only [if_pos hwhole, hr]
    rw [hwhole.1]
  · obtain ⟨hm, hg⟩ := malloc_ok hs
    obtain ⟨hr, hg'⟩ := readCluster_ok hg.sound hc
    rw [hg.data] at hr
    refine ⟨_, ?_, hg.on hg'⟩
    simp only [if_neg hwhole, hm, hr]

theorem readPart_ok (h : Along fs fp cs e q) (hq : q < cs.length * fs.vol.bytesPerCluster)
    (hn : q % fs.vol.bytesPerCluster + n ≤ fs.vol.bytesPerCluster) :
    ∃ fs', readPart fp.currentCluster fp.pos n fs = (some (bytesOf (fs.content cs) q n), fs') ∧
      Goes fs fs' fs.table fs.data := by
  obtain ⟨fs', hr, hg⟩ := @readPart_data fs fp.currentCluster fp.pos h.sound (h.isIn hq).1 n
  refine ⟨fs', ?_, hg⟩
  rw [hr, h.offset]
  congr 2
  refine (bytesOf_congr fun k hk => ?_).symm
  rw [Fs.content, Blocks.flat_add (by omega), h.current, List.getD_eq_getElem _ _ (div_lt_length hq),
    List.getD_eq_getElem _ _ (div_lt_length hq)]

/-- **The loop reads on along the clusters**, if there are enough, or there is none behind them. -/
theorem readLoop_along {fuel remaining : Nat} (h : Along fs fp cs e q) (hfuel : remaining ≤ fuel)
    (hend : remaining ≤ cs.length * fs.vol.bytesPerCluster - q ∨ e = 0)
    (hn : n = min remaining (cs.length * fs.vol.bytesPerCluster - q)) :
    ∃ fs', readLoop fuel remaining fp fs = (bytesOf (fs.content cs) q n, fp.moved fs.vol cs q n e, fs') ∧
      Goes fs fs' fs.table fs.data := by
  have hB := h.sound.size_pos
  have hstay : fp.moved fs.vol cs q 0 e = fp := by
    rw [File.moved, Nat.add_zero, Nat.add_zero, ← h.current]
  induction fuel generalizing remaining fp fs q n with
  | zero =>
    obtain rfl : n = 0 := by omega
    exact ⟨fs, by rw [hstay]; rfl, .refl h.sound⟩
  | succ fuel ih =>
    rw [readLoop]
    by_cases hmore : 0 < remaining ∧ q < cs.length * fs.vol.bytesPerCluster
    · obtain ⟨hrem, hq⟩ := hmore
      rw [if_pos ⟨hrem, h.sound.isCluster (h.isIn hq)⟩]
      have hmod := Nat.mod_lt q hB
      -- the part of it that is in this cluster
      generalize hk : inCluster fs.vol fp.pos remaining = k
      rw [inCluster, h.offset] at hk
      have hcap : q + k ≤ cs.length * fs.vol.bytesPerCluster := by
        have hrow := Nat.mul_le_mul_right fs.vol.bytesPerCluster (Nat.succ_le_of_lt (div_lt_length hq))
        rw [Nat.succ_mul] at hrow
        have hqq := Nat.div_add_mod' q fs.vol.bytesPerCluster
        omega
      obtain ⟨fs1, hr, hg1⟩ := readPart_ok (n := k) h hq (by omega)
      have h1 : Along fs1 fp cs e q := h.of_table hg1.sound hg1.shape hg1.table
      have hsize := hg1.shape.bytesPerCluster
      obtain ⟨fs2, ha, hg2⟩ := advance_ok (n := k) h1 (by rwa [hsize]) (by rw [hsize]; omega)
      have h2 : Along fs2 (fp.moved fs1.vol cs q k e) cs e (q + k) :=
        (h1.moved (by rwa [hsize])).of_table hg2.sound hg2.shape hg2.table
      have hsize2 : fs2.vol.bytesPerCluster = fs.vol.bytesPerCluster :=
        hg2.shape.bytesPerCluster.trans hsize
      obtain ⟨fs3, hl, hg3⟩ := ih (n := n - k) h2 (show remaining - k ≤ fuel by omega)
        (by rw [hsize2]; omega) (by rw [hsize2]; omega) (by rwa [hsize2])
        (by rw [File.moved, File.moved, Nat.add_zero, Nat.add_zero, hsize2, hsize])
      have hg := hg1.on hg2
      refine ⟨fs3, ?_, hg.on hg3⟩
      have hnk : k + (n - k) = n := by omega
      simp only [hr, ha, hl, hg.content]
      rw [← bytesOf_add, hnk]
      simp only [File.moved, hsize2, Nat.add_assoc, hnk]
    · have hn0 : n = 0 := by omega
      subst hn0
      rw [if_neg]
      · exact ⟨fs, by rw [hstay]; rfl, .refl h.sound⟩
      · rintro ⟨hrem, hcl⟩
        have hq : q = cs.length * fs.vol.bytesPerCluster := by
          have := h.place
          omega
        rw [h.current_eq hq, hend.resolve_left (by omega)] at hcl
        exact absurd hcl.1 (by decide)

/-! ## Writing -/

/-- **What a write has done**: the bytes are in the chain from `q` on, which has been extended by no
more clusters than they need, and the handle is behind them. -/
structure Wrote (fs fs' : Fs) (fp fp' : File) (cs cs' : List Nat) (q : Nat) (src : List UInt8) :
    Prop where
  grows : Grows fs fs' cs cs'
  stands : Stands fs' fp' cs' (q + src.length)
  content : ∀ x, x < cs.length * fs.vol.bytesPerCluster ∨ (q ≤ x ∧ x < q + src.length) →
    fs'.content cs' x = write (fs.content cs) q src.length (fun i => src.getD i 0) x
  minimal : cs' = cs ∨
    cs'.length * fs.vol.bytesPerCluster < q + src.length + fs.vol.bytesPerCluster
  pos : fp'.pos = fp.pos + src.length
  fileSize : fp'.fileSize = max fp.fileSize (fp.pos + src.length)
  firstCluster : cs ≠ [] → fp'.firstCluster = fp.firstCluster
  writeMode : fp'.writeMode = fp.writeMode
  dirCluster : fp'.dirCluster = fp.dirCluster
  dirOffset : fp'.dirOffset = fp.dirOffset

variable {src src' : List UInt8}

theorem Wrote.of_goes (hg : Goes fs fs' fs.table fs.data) (h : Stands fs fp cs q)
    (hpos : fp.pos ≤ fp.fileSize) : Wrote fs fs' fp fp cs cs q [] where
  grows := hg.grows fun _ _ => rfl
  stands := h.of_table hg.sound hg.shape hg.table
  content := fun x _ => by
    rw [hg.content, write_outside]
    show x < q ∨ q + 0 ≤ x
    omega
  minimal := Or.inl rfl
  pos := rfl
  fileSize := (Nat.max_eq_left hpos).symm
  firstCluster := fun _ => rfl
  writeMode := rfl
  dirCluster := rfl
  dirOffset := rfl

theorem Grows.length_le (h : Grows fs fs' cs cs') : cs.length ≤ cs'.length := h.begins.length_le

theorem Wrote.trans (h : Wrote fs fs' fp fp' cs cs' q src)
    (h' : Wrote fs' fs'' fp' fp'' cs' cs'' (q + src.length) src') :
    Wrote fs fs'' fp fp'' cs cs'' q (src ++ src') := by
  have hsize := h.grows.shape.bytesPerCluster
  have hlen : (src ++ src').length = src.length + src'.length := List.length_append
  have hcap : cs.length * fs.vol.bytesPerCluster ≤ cs'.length * fs.vol.bytesPerCluster :=
    Nat.mul_le_mul_right _ h.grows.length_le
  refine ⟨h.grows.trans h'.grows, ?_, fun x hx => ?_, ?_, ?_, ?_, fun hne => ?_,
    h'.writeMode.trans h.writeMode, h'.dirCluster.trans h.dirCluster, h'.dirOffset.trans h.dirOffset⟩
  · rw [hlen, ← Nat.add_assoc]
    exact h'.stands
  · have hplace := h.stands.place
    rw [hsize] at hplace
    have hx' : x < cs'.length * fs'.vol.bytesPerCluster ∨ (q + src.length ≤ x ∧ x < q + src.length + src'.length) := by
      rw [hsize]
      omega
    rw [h'.content x hx', hlen]
    by_cases hin : q + src.length ≤ x ∧ x < q + src.length + src'.length
    · rw [write, if_pos hin, write, if_pos (by omega), List.getD_append_right _ _ _ _ (by omega), Nat.sub_sub]
    · rw [write, if_neg hin, h.content x (by omega), write, write]
      by_cases hin' : q ≤ x ∧ x < q + src.length
      · rw [if_pos hin', if_pos (by omega), List.getD_append _ _ _ _ (by omega)]
      · rw [if_neg hin', if_neg (by omega)]
  · rcases h'.minimal with rfl | hm
    · rcases h.minimal with rfl | hm
      · exact Or.inl rfl
      · exact Or.inr (by omega)
    · rw [hsize] at hm
      exact Or.inr (by omega)
  · rw [h'.pos, h.pos]
    omega
  · rw [h'.fileSize, h.fileSize, h.pos]
    omega
  · have hne' : cs' ≠ [] := by
      rintro rfl
      exact hne (List.prefix_nil.1 h.grows.begins)
    rw [h'.firstCluster hne', h.firstCluster hne]

/-- A write within a cluster: what the cluster holds afterwards. -/
def writtenPart (vol : Volume) (buf : Buf) (pos : Nat) (src : List UInt8) : Buf :=
  vol.clip (if pos % vol.bytesPerCluster = 0 ∧ src.length = vol.bytesPerCluster
    then fun i => src.getD i 0
    else write buf (pos % vol.bytesPerCluster) src.length fun i => src.getD i 0)

theorem writePart_data {c pos : Nat} (hs : Sound fs) (hc : 2 ≤ c) (src : List UInt8) :
    ∃ fs', writePart c pos src fs = (true, fs') ∧
      Goes fs fs' fs.table (Function.update fs.data c (writtenPart fs.vol (fs.data c) pos src)) := by
  rw [writePart, writtenPart]
  by_cases hwhole : pos % fs.vol.bytesPerCluster = 0 ∧ src.length = fs.vol.bytesPerCluster
  · obtain ⟨fs', hr, hg⟩ := writeCluster_ok hs hc fun i => src.getD i 0
    refine ⟨fs', ?_, ?_⟩
    · rw [if_pos hwhole, hr]
    · rw [if_pos hwhole]
      exact hg
  · obtain ⟨hm, hg1⟩ := malloc_ok hs
    obtain ⟨hr, hg2⟩ := readCluster_ok hg1.sound hc
    rw [hg1.table, hg1.data] at hg2
    rw [hg1.data] at hr
    obtain ⟨fs', hw, hg3⟩ := writeCluster_ok hg2.sound hc
      (write (fs.data c) (pos % fs.vol.bytesPerCluster) src.length fun i => src.getD i 0)
    rw [hg2.table, hg2.data] at hg3
    refine ⟨fs', ?_, ?_⟩
    · simp only [if_neg hwhole, hm, hr, hw]
    · rw [if_neg hwhole, ← (hg1.trans hg2).shape.clip]
      exact (hg1.trans hg2).trans hg3

theorem writePart_ok (h : Stands fs fp cs q) (hq : q < cs.length * fs.vol.bytesPerCluster)
    (hn : q % fs.vol.bytesPerCluster + src.length ≤ fs.vol.bytesPerCluster) :
    ∃ fs', writePart fp.currentCluster fp.pos src fs = (true, fs') ∧
      Goes fs fs' fs.table (Function.update fs.data fp.currentCluster
        (write (fs.data fp.currentCluster) (q % fs.vol.bytesPerCluster) src.length
          fun i => src.getD i 0)) := by
  have hc := (h.inVolume hq).1
  have hbeyond : ∀ i, fs.vol.bytesPerCluster ≤ i → fs.data fp.currentCluster i = 0 := by
    intro i hi
    rw [Fs.data, if_pos hc, sectors, if_neg]
    rw [← h.sound.bytesPerCluster]
    exact Nat.not_lt.2 hi
  obtain ⟨fs', hw, hg⟩ := @writePart_data fs fp.currentCluster fp.pos h.sound hc src
  refine ⟨fs', hw, hg.sound, hg.shape, hg.table, hg.data.trans (congrArg _ ?_)⟩
  funext i
  rw [writtenPart, h.offset, Volume.clip]
  by_cases hi : i < fs.vol.bytesPerCluster
  · rw [if_pos hi]
    split
    · rename_i hwhole
      rw [write, hwhole.1, hwhole.2, if_pos (by omega), Nat.sub_zero]
    · rfl
  · rw [if_neg hi, write, if_neg (by omega), hbeyond i (Nat.not_lt.1 hi)]

/-- There is a cluster to write to; it has been added to the chain if there was none. -/
structure Ready (fs fs' : Fs) (fp fp' : File) (cs cs' : List Nat) (q : Nat) : Prop where
  grows : Grows fs fs' cs cs'
  stands : Stands fs' fp' cs' q
  data : fs'.data = fs.data
  place : q < cs'.length * fs.vol.bytesPerCluster
  minimal : cs' = cs ∨ cs'.length * fs.vol.bytesPerCluster = q + fs.vol.bytesPerCluster
  firstCluster : cs ≠ [] → fp'.firstCluster = fp.firstCluster
  handle : fp' = { fp with
    firstCluster := fp'.firstCluster
    currentCluster := fp'.currentCluster }

theorem addCluster_eq {prev new : Nat} (ha : fat32AllocClusters 1 0 fs = (new, fs')) (hnew : new ≠ 0) :
    addCluster fp prev fs = (some { fp with
        firstCluster := if fp.firstCluster < 2 then new else fp.firstCluster
        currentCluster := new },
       (fatWriteEntry new clusterEoc
        (if 2 ≤ fp.firstCluster ∧ IsCluster prev then (fatWriteEntry prev new fs').2 else fs')).2) := by
  rw [addCluster, ha]
  cases new with
  | zero => exact absurd rfl hnew
  | succ k => rfl

/-- **A cluster is added at the end of the chain.** -/
theorem addCluster_ok (h : Stands fs fp cs q) (hq : q = cs.length * fs.vol.bytesPerCluster) (hfree : 0 < fs.free.card) :
    ∃ cs' fp' fs', addCluster fp (cs.getLastD 0) fs = (some fp', fs') ∧ Ready fs fs' fp fp' cs cs' q := by
  have hB := h.sound.size_pos
  obtain ⟨new, fs1, ha, hnew, hg1⟩ := fat32AllocClusters_one h.sound hfree
  have hnv := (Fs.mem_free.1 hnew).1
  have hnew0 : new ≠ 0 := Nat.ne_of_gt (Nat.lt_of_lt_of_le Nat.two_pos hnv.1)
  have hadd : ∀ {fs' : Fs} {first : Nat} {cs' : List Nat}, cs' = cs ++ [new] → Grows fs fs' cs cs' →
      Chain fs'.vol fs'.table first cs' → fs'.data = fs.data → (cs ≠ [] → first = fp.firstCluster) →
      Ready fs fs' fp { fp with firstCluster := first, currentCluster := new } cs cs' q := by
    intro fs' first cs' hcs' hgr hch hd hfirst
    have hlen : cs'.length * fs.vol.bytesPerCluster = q + fs.vol.bytesPerCluster := by
      rw [hcs', List.length_append, List.length_singleton, Nat.succ_mul, hq]
    have hsize := hgr.shape.bytesPerCluster
    refine ⟨hgr, ⟨hgr.sound, hch, ?_, ?_, ?_⟩, hd, ?_, Or.inr hlen, hfirst, rfl⟩
    · rw [hsize, hq, Nat.mul_div_cancel _ hB, hcs', List.getD_append_right _ _ _ _ (Nat.le_refl _), Nat.sub_self]
      rfl
    · rw [hsize, hlen]
      exact Nat.le_add_right ..
    · rw [hsize]
      exact h.offset
    · rw [hlen]
      exact Nat.lt_add_of_pos_right hB
  rw [addCluster_eq ha hnew0]
  by_cases hne : cs = []
  · -- the file has no cluster yet
    subst hne
    have hfirst : fp.firstCluster = 0 := h.chain.list
    obtain ⟨fs2, hw, hg2⟩ := fatWriteEntry_goes hg1.sound (hg1.shape.inVolume.2 hnv) clusterEoc
    rw [hg1.table, hg1.data, Function.update_idem, show low28 clusterEoc = clusterEoc by decide] at hg2
    obtain ⟨hgr, hch⟩ := (hg1.trans hg2).took hnew fun _ _ => rfl
    refine ⟨[new], _, fs2, ?_, hadd rfl hgr hch hg2.data fun hn => absurd rfl hn⟩
    rw [if_pos (by rw [hfirst]; decide), if_neg (by rw [hfirst]; exact fun hc => absurd hc.1 (by decide)), hw]
  · have hlast : cs.getLastD 0 = cs.getLast hne := by
      rw [List.getLastD_eq_getLast?, List.getLast?_eq_some_getLast hne, Option.getD_some]
    have hlv := h.chain.inVolume _ (List.getLast_mem hne)
    have hfirst : 2 ≤ fp.firstCluster := by
      obtain ⟨x, l, rfl⟩ := List.exists_cons_of_ne_nil hne
      rw [h.chain.head]
      exact (h.chain.inVolume x List.mem_cons_self).1
    obtain ⟨fs2, fs3, hw2, hw3, hg3⟩ := fatWriteEntry_link h.sound hlv hnew hg1
    obtain ⟨hgr, hch⟩ := hg3.link h.chain h.sound hne hnew
    refine ⟨cs ++ [new], _, fs3, ?_, hadd rfl hgr hch hg3.data fun _ => rfl⟩
    rw [hlast, if_neg (Nat.not_lt.2 hfirst), if_pos ⟨hfirst, h.sound.isCluster hlv⟩, hw2, hw3]

theorem ensureCluster_ok {prev : Nat} (h : Stands fs fp cs q)
    (hprev : q = cs.length * fs.vol.bytesPerCluster → prev = cs.getLastD 0)
    (hfree : q = cs.length * fs.vol.bytesPerCluster → 0 < fs.free.card) :
    ∃ cs' fp' fs', ensureCluster fp prev fs = (some fp', fs') ∧ Ready fs fs' fp fp' cs cs' q := by
  rw [ensureCluster]
  rcases Nat.lt_or_eq_of_le h.place with hq | hq
  · rw [if_pos (h.sound.isCluster (h.inVolume hq))]
    exact ⟨cs, fp, fs, rfl, (Goes.refl h.sound).grows fun _ _ => rfl, h, rfl, hq, Or.inl rfl, fun _ => rfl, rfl⟩
  · rw [h.current_eq_zero hq, if_neg (by decide), hprev hq]
    exact addCluster_ok h hq (hfree hq)

/-- **One round of the loop**, once there is a cluster to write to. -/
theorem Ready.wrote {fs1 : Fs} {fp1 : File} (h : Ready fs fs1 fp fp1 cs cs' q) (hsrc : src ≠ [])
    (hn : q % fs.vol.bytesPerCluster + src.length ≤ fs.vol.bytesPerCluster)
    (hlt : fp.pos + src.length < 2 ^ 32) :
    ∃ fs2 fp3 fs3, writePart fp1.currentCluster fp1.pos src fs1 = (true, fs2) ∧
      fs2.vol.bytesPerCluster = fs.vol.bytesPerCluster ∧
      advance { fp1 with fileSize := grow fp1 src.length } src.length fs2 = (fp3, fs3) ∧
      Wrote fs fs3 fp fp3 cs cs' q src := by
  have hsize := h.grows.shape.bytesPerCluster
  have hfields : fp1.pos = fp.pos ∧ fp1.fileSize = fp.fileSize ∧ fp1.writeMode = fp.writeMode ∧
      fp1.dirCluster = fp.dirCluster ∧ fp1.dirOffset = fp.dirOffset := by
    rw [h.handle]
    exact ⟨rfl, rfl, rfl, rfl, rfl⟩
  obtain ⟨hfpos, hfsize, hfmode, hfdir, hfoff⟩ := hfields
  have hplace : q < cs'.length * fs1.vol.bytesPerCluster := by
    rw [hsize]
    exact h.place
  obtain ⟨fs2, hw, hg2⟩ := writePart_ok h.stands hplace (by rwa [hsize])
  have hsize2 : fs2.vol.bytesPerCluster = fs.vol.bytesPerCluster :=
    hg2.shape.bytesPerCluster.trans hsize
  have hst2 : Stands fs2 { fp1 with fileSize := grow fp1 src.length } cs' q := by
    have := h.stands.of_table hg2.sound hg2.shape hg2.table
    exact ⟨this.sound, this.chain, this.current, this.place, this.offset⟩
  obtain ⟨fs3, ha, hg3⟩ := advance_ok hst2.along (by rw [hsize2]; exact h.place) (by rwa [hsize2])
  have hmoved := (hst2.moved (n := src.length) (by
    have hrow := Nat.mul_le_mul_right fs.vol.bytesPerCluster (Nat.succ_le_of_lt (div_lt_length h.place))
    have hqq := Nat.div_add_mod' q fs.vol.bytesPerCluster
    rw [Nat.succ_mul] at hrow
    rw [hsize2]
    omega)).of_table hg3.sound hg3.shape hg3.table
  refine ⟨fs2, _, fs3, hw, hsize2, ha, ?_⟩
  rw [hg2.table, hg2.data] at hg3
  have hg := hg2.trans hg3
  refine ⟨h.grows.trans (hg.grows fun x hx => ?_), hmoved, fun x hx => ?_, ?_, ?_, ?_,
    h.firstCluster, hfmode, hfdir, hfoff⟩
  · rw [Function.update_of_ne]
    rintro rfl
    exact hx (h.stands.current_mem hplace)
  · rw [Fs.content, hg3.shape.bytesPerCluster, hsize2, hg.data, h.stands.current, hsize, h.data]
    have hnull : 0 ∉ cs' := h.stands.chain.list.ne_null
    rw [Blocks.flat_write h.stands.chain.list.nodup hnull h.place hn]
    by_cases hin : q ≤ x ∧ x < q + src.length
    · rw [write, write, if_pos hin, if_pos hin]
    · rw [write, write, if_neg hin, if_neg hin, Fs.content, Blocks.flat_of_prefix h.grows.begins (hx.resolve_right hin)]
  · have hlen := List.length_pos_of_ne_nil hsrc
    rcases h.minimal with he | he
    · exact Or.inl he
    · exact Or.inr (by omega)
  · show fp1.pos + _ = _
    rw [hfpos]
  · show grow fp1 src.length = _
    rw [grow, hfpos, hfsize, Nat.mod_eq_of_lt hlt]
    split <;> omega

/-- The cluster before the current one, when the next place is where the chain ends. -/
theorem Wrote.prev_eq (prev : Nat) (h : Wrote fs fs' fp fp' cs cs' q src) (hsrc : src ≠ [])
    (hn : q % fs.vol.bytesPerCluster + src.length ≤ fs.vol.bytesPerCluster)
    (hend : q + src.length = cs'.length * fs'.vol.bytesPerCluster) :
    (if fs.vol.bytesPerCluster ≤ q % fs.vol.bytesPerCluster + src.length then
      cs'.getD (q / fs.vol.bytesPerCluster) 0 else prev) = cs'.getLastD 0 := by
  have hB : 0 < fs.vol.bytesPerCluster := by
    rw [← h.grows.shape.bytesPerCluster]
    exact h.stands.sound.size_pos
  rw [h.grows.shape.bytesPerCluster] at hend
  have hlen := List.length_pos_of_ne_nil hsrc
  have hmod : (q + src.length) % fs.vol.bytesPerCluster = 0 := by rw [hend, Nat.mul_mod_left]
  -- otherwise the place would be in the middle of a cluster
  have hfull : fs.vol.bytesPerCluster ≤ q % fs.vol.bytesPerCluster + src.length := by
    by_contra hnot
    rw [(Blocks.div_mod_add (Nat.not_le.1 hnot)).2] at hmod
    omega
  rw [if_pos hfull]
  have hdiv := (Blocks.div_mod_full hB (Nat.le_antisymm hn hfull)).1
  rw [hend, Nat.mul_div_cancel _ hB] at hdiv
  rw [List.getLastD_eq_getLast?, List.getLast?_eq_getElem?, List.getD_eq_getElem?_getD, hdiv, Nat.add_sub_cancel]

/-- Without a free cluster none is added. -/
theorem addCluster_full {prev : Nat} (hs : Sound fs) (htot : 2 < fs.vol.totalClusters) (hfull : fs.free.card = 0) :
    ∃ fs', addCluster fp prev fs = (none, fs') ∧ Goes fs fs' fs.table fs.data := by
  obtain ⟨c, fs', ha, ⟨rfl, -, hg⟩ | ⟨-, hc, -⟩⟩ := fat32AllocClusters_spec hs htot
  · refine ⟨fs', ?_, hg⟩
    rw [addCluster, ha]
    rfl
  · rw [Finset.card_eq_zero.1 hfull] at hc
    exact absurd hc (Finset.notMem_empty c)

/-- **The loop writes on along the chain**, which it extends as far as it needs to, and stops short only
when there is no free cluster left. -/
theorem writeLoop_any {fuel prev : Nat} (h : Stands fs fp cs q) (hfuel : src.length ≤ fuel)
    (htot : 2 < fs.vol.totalClusters)
    (hprev : q = cs.length * fs.vol.bytesPerCluster → prev = cs.getLastD 0 ∨ fs.free.card = 0)
    (hpos : fp.pos ≤ fp.fileSize) (hlt : fp.pos + src.length < 2 ^ 32) :
    ∃ n cs' fp' fs', writeLoop fuel src prev fp fs = (n, fp', fs') ∧
      Wrote fs fs' fp fp' cs cs' q (src.take n) ∧ n ≤ src.length ∧
      (n < src.length → fs'.free.card = 0 ∧ q + n = cs'.length * fs.vol.bytesPerCluster) := by
  induction fuel generalizing src prev fp fs cs q with
  | zero =>
    obtain rfl := List.eq_nil_of_length_eq_zero (Nat.le_zero.1 hfuel)
    exact ⟨0, cs, fp, fs, rfl, .of_goes (.refl h.sound) h hpos, Nat.le_refl 0, fun h0 => absurd h0 (Nat.lt_irrefl 0)⟩
  | succ fuel ih =>
    rw [writeLoop]
    by_cases hsrc : src = []
    · rw [if_pos hsrc, hsrc]
      exact ⟨0, cs, fp, fs, rfl, .of_goes (.refl h.sound) h hpos, Nat.le_refl 0, fun h0 => absurd h0 (Nat.lt_irrefl 0)⟩
    rw [if_neg hsrc]
    have hB := h.sound.size_pos
    have hlen := List.length_pos_of_ne_nil hsrc
    by_cases hfull : q = cs.length * fs.vol.bytesPerCluster ∧ fs.free.card = 0
    · -- there is no cluster to write to
      obtain ⟨fs', ha, hg⟩ := @addCluster_full fs fp prev h.sound htot hfull.2
      have hstill : fs'.free = fs.free := by rw [Fs.free, Fs.free, hg.shape.totalClusters, hg.table]
      have he : ensureCluster fp prev fs = (none, fs') := by
        rw [ensureCluster, h.current_eq_zero hfull.1, if_neg (by decide), ha]
      rw [he]
      exact ⟨0, cs, fp, fs', rfl, .of_goes hg h hpos, Nat.zero_le _, fun _ => ⟨by rw [hstill, hfull.2], hfull.1⟩⟩
    have hfree : q = cs.length * fs.vol.bytesPerCluster → 0 < fs.free.card := fun hq =>
      Nat.pos_of_ne_zero fun h0 => hfull ⟨hq, h0⟩
    obtain ⟨cs1, fp1, fs1, he, hready⟩ := ensureCluster_ok h
      (fun hq => (hprev hq).resolve_right (Nat.ne_of_gt (hfree hq))) hfree
    have hoff : fp1.pos % fs1.vol.bytesPerCluster = q % fs.vol.bytesPerCluster := by
      rw [hready.stands.offset, hready.grows.shape.bytesPerCluster]
    -- the part of it that goes to this cluster
    generalize hk : inCluster fs1.vol fp1.pos src.length = k
    have hk' := hk
    rw [inCluster, hoff, hready.grows.shape.bytesPerCluster] at hk'
    have hmod := Nat.mod_lt q hB
    have htake : (src.take k).length = k := by
      rw [List.length_take]
      omega
    have htake0 : src.take k ≠ [] := List.ne_nil_of_length_pos (by omega)
    have hin : q % fs.vol.bytesPerCluster + (src.take k).length ≤ fs.vol.bytesPerCluster := by omega
    obtain ⟨fs2, fp3, fs3, hw, hsize2, ha, hwrote⟩ := hready.wrote htake0 hin (by omega)
    have hprev3 := fun hend => hwrote.prev_eq prev htake0 hin hend
    rw [htake] at ha hprev3
    have hsize3 := hwrote.grows.shape.bytesPerCluster
    have hcur : fp1.currentCluster = cs1.getD (q / fs.vol.bytesPerCluster) 0 := by
      rw [hready.stands.current, hready.grows.shape.bytesPerCluster]
    obtain ⟨n, cs', fp', fs', hl, hrest, hn, hshort⟩ := ih hwrote.stands
      (show (src.drop k).length ≤ fuel by rw [List.length_drop]; omega)
      (by rw [hwrote.grows.shape.totalClusters]; exact htot)
      (by rw [htake]; exact fun hend => Or.inl (hprev3 hend))
      (by rw [hwrote.pos, hwrote.fileSize]; omega)
      (by rw [hwrote.pos, htake, List.length_drop]; omega)
    rw [List.length_drop] at hn hshort
    refine ⟨k + n, cs', fp', fs', ?_, ?_, by omega, fun hlt => ?_⟩
    · rw [hready.grows.shape.bytesPerCluster] at hoff
      rw [← hcur] at hl
      simp only [he, hk, hw, hsize2, ha, hoff, hl]
    · rw [List.take_add]
      exact hwrote.trans hrest
    · obtain ⟨hnone, hend⟩ := hshort (by omega)
      rw [htake, hsize3] at hend
      exact ⟨hnone, by rw [← hend, Nat.add_assoc]⟩

/-- A volume with room for something has a cluster. -/
theorem Stands.two_lt (h : Stands fs fp cs q)
    (hroom : 0 < (fs.free.card + cs.length) * fs.vol.bytesPerCluster) : 2 < fs.vol.totalClusters := by
  have hin : ∀ c, InVolume fs.vol c → 2 < fs.vol.totalClusters := fun c hc => hc.1.trans_lt hc.2
  cases hcs : cs with
  | cons x l => exact hin x (h.chain.inVolume x (by rw [hcs]; exact List.mem_cons_self))
  | nil =>
    have hpos : 0 < fs.free.card := by
      rw [hcs] at hroom
      exact Nat.pos_of_mul_pos_right hroom
    obtain ⟨x, hx⟩ := Finset.card_pos.1 hpos
    exact hin x (Fs.mem_free.1 hx).1

/-! ## Walks along a chain -/

/-- The walk for the cluster before the current one ends. -/
theorem prevClusterLoop_ok {fuel prev c : Nat} (cluster : Nat) (hs : Sound fs)
    (hch : Chain fs.vol fs.table c cs) (hfuel : cs.length < fuel) :
    ∃ p fs', prevClusterLoop cluster fuel prev c fs = some (p, fs') ∧ Goes fs fs' fs.table fs.data := by
  induction cs generalizing fuel prev c fs with
  | nil =>
    obtain ⟨fuel, rfl⟩ := Nat.exists_eq_add_of_lt hfuel
    obtain rfl : c = 0 := hch.list
    refine ⟨prev, fs, ?_, .refl hs⟩
    rw [prevClusterLoop, if_neg (by decide)]
    rfl
  | cons x cs ih =>
    obtain ⟨fuel, rfl⟩ : ∃ k, fuel = k + 1 := Nat.exists_eq_add_of_le' (Nat.zero_lt_of_lt hfuel)
    obtain rfl := hch.head
    have hc := hch.inVolume c List.mem_cons_self
    obtain ⟨fs1, hr, hg1⟩ := fat32NextCluster_goes hs hc
    rw [prevClusterLoop, if_pos (hs.isCluster hc), bind_run (lift_run hr)]
    split
    · exact ⟨prev, fs1, rfl, hg1⟩
    · obtain ⟨p, fs', hl, hg⟩ := ih hg1.sound (hg1.chain hch.tail)
        (Nat.lt_of_succ_lt_succ hfuel)
      exact ⟨p, fs', hl, hg1.on hg⟩

/-- The cluster before the current one is looked for only if there is a current one. -/
theorem prevCluster_goes (hs : Sound fs) (hch : Chain fs.vol fs.table fp.firstCluster cs) :
    ∃ p fs', prevCluster fp fs = some (p, fs') ∧ Goes fs fs' fs.table fs.data ∧ (fp.currentCluster = 0 → p = 0) := by
  rw [prevCluster]
  by_cases hcl : IsCluster fp.currentCluster
  · have hcur : fp.currentCluster = 0 → ∀ p : Nat, p = 0 := fun h0 => by
      rw [h0] at hcl
      exact absurd hcl (by decide)
    rw [if_pos hcl]
    split
    · exact ⟨_, fs, rfl, .refl hs, fun h0 => hcur h0 _⟩
    · obtain ⟨p, fs', hl, hg⟩ := prevClusterLoop_ok fp.currentCluster hs hch (hch.length_lt hs)
      exact ⟨p, fs', hl, hg, fun h0 => hcur h0 _⟩
  · rw [if_neg hcl]
    exact ⟨0, fs, rfl, .refl hs, fun _ => rfl⟩

/-- **A call of `fat32_write`** that does not begin where a chain ends, or finds no free cluster there. -/
theorem fat32Write_any (h : Stands fs fp cs q) (hmode : fp.writeMode = true) (htot : 2 < fs.vol.totalClusters)
    (hstart : src ≠ [] → q = cs.length * fs.vol.bytesPerCluster → cs = [] ∨ fs.free.card = 0)
    (hpos : fp.pos ≤ fp.fileSize) (hlt : fp.pos + src.length < 2 ^ 32) :
    ∃ n cs' fp' fs', fat32Write fp src fs = some ((n, fp'), fs') ∧
      Wrote fs fs' fp fp' cs cs' q (src.take n) ∧ n ≤ src.length ∧
      (n < src.length → fs'.free.card = 0 ∧ q + n = cs'.length * fs.vol.bytesPerCluster) := by
  obtain ⟨p, fs1, hp, hg, hp0⟩ := prevCluster_goes h.sound h.chain
  have h1 : Stands fs1 fp cs q := h.of_table hg.sound hg.shape hg.table
  have hwrite : fat32Write fp src fs =
      some (((writeLoop src.length src p fp fs1).1, (writeLoop src.length src p fp fs1).2.1),
        (writeLoop src.length src p fp fs1).2.2) := by
    rw [fat32Write, if_neg (by rw [hmode]; decide), bind_run hp]
    rfl
  rw [hwrite]
  by_cases hsrc : src = []
  · subst hsrc
    exact ⟨0, cs, fp, fs1, rfl, .of_goes hg h hpos, Nat.le_refl 0, fun h0 => absurd h0 (Nat.lt_irrefl 0)⟩
  · have hsize := hg.shape.bytesPerCluster
    have hfree : fs1.free.card = fs.free.card := by
      rw [Fs.free, Fs.free, hg.shape.totalClusters, hg.table]
    have hprev : q = cs.length * fs1.vol.bytesPerCluster → p = cs.getLastD 0 ∨ fs1.free.card = 0 := by
      rw [hsize, hfree]
      intro hq
      rw [hp0 (h.current_eq_zero hq)]
      refine (hstart hsrc hq).imp_left ?_
      rintro rfl
      rfl
    obtain ⟨n, cs', fp', fs', hl, hw, hn, hshort⟩ := writeLoop_any h1 (Nat.le_refl src.length)
      (by rwa [hg.shape.totalClusters]) hprev hpos hlt
    rw [hl]
    rw [hsize] at hshort
    exact ⟨n, cs', fp', fs', rfl, (Wrote.of_goes hg h hpos).trans hw, hn, hshort⟩

/-- **With enough free clusters all of the bytes are written.** -/
theorem fat32Write_ok (h : Stands fs fp cs q) (hmode : fp.writeMode = true)
    (hstart : src ≠ [] → q = cs.length * fs.vol.bytesPerCluster → cs = [])
    (hroom : q + src.length ≤ (fs.free.card + cs.length) * fs.vol.bytesPerCluster)
    (hpos : fp.pos ≤ fp.fileSize) (hlt : fp.pos + src.length < 2 ^ 32) :
    ∃ cs' fp' fs', fat32Write fp src fs = some ((src.length, fp'), fs') ∧ Wrote fs fs' fp fp' cs cs' q src := by
  by_cases hsrc : src = []
  · subst hsrc
    obtain ⟨p, fs1, hp, hg, -⟩ := prevCluster_goes h.sound h.chain
    refine ⟨cs, fp, fs1, ?_, .of_goes hg h hpos⟩
    rw [fat32Write, if_neg (by rw [hmode]; decide), bind_run hp]
    rfl
  · have hlen := List.length_pos_of_ne_nil hsrc
    obtain ⟨n, cs', fp', fs', hw, hwrote, hn, hshort⟩ := fat32Write_any h hmode
      (h.two_lt (by omega)) (fun hs hq => Or.inl (hstart hs hq)) hpos hlt
    have hfree := hwrote.grows.free
    obtain rfl : n = src.length := by
      by_contra hne
      obtain ⟨hnone, hend⟩ := hshort (by omega)
      rw [hnone, Nat.zero_add] at hfree
      rw [← hfree] at hroom
      omega
    rw [List.take_length] at hwrote
    exact ⟨cs', fp', fs', hw, hwrote⟩

/-- The walk to the last cluster. -/
theorem lastClusterLoop_ok {fuel c : Nat} (hs : Sound fs) (hch : Chain fs.vol fs.table c cs)
    (hfuel : cs.length < fuel) :
    ∃ fs', lastClusterLoop fuel c fs = some (cs.getLastD 0, fs') ∧ Goes fs fs' fs.table fs.data := by
  induction cs generalizing fuel c fs with
  | nil =>
    obtain ⟨fuel, rfl⟩ := Nat.exists_eq_add_of_lt hfuel
    obtain rfl : c = 0 := hch.list
    exact ⟨fs, rfl, .refl hs⟩
  | cons x cs ih =>
    obtain ⟨fuel, rfl⟩ : ∃ k, fuel = k + 1 := Nat.exists_eq_add_of_le' (Nat.zero_lt_of_lt hfuel)
    obtain rfl := hch.head
    have hc := hch.inVolume c List.mem_cons_self
    obtain ⟨fs1, hr, hg1⟩ := fat32NextCluster_goes hs hc
    rw [lastClusterLoop, if_neg (Nat.not_lt.2 hc.1), bind_run (lift_run hr)]
    have htail := hg1.chain hch.tail
    cases cs with
    | nil =>
      rw [if_pos ((hch.next_end hs).2 rfl)]
      exact ⟨fs1, rfl, hg1⟩
    | cons y cs =>
      rw [if_neg (mt (hch.next_end hs).1 (List.cons_ne_nil y cs))]
      obtain ⟨fs', hl, hg⟩ := ih hg1.sound htail (Nat.lt_of_succ_lt_succ hfuel)
      exact ⟨fs', hl, hg1.on hg⟩

/-- The walk of `fat32_seek` goes no further than to the last cluster. -/
theorem seekLoop_ok {c : Nat} (hs : Sound fs) (hch : Chain fs.vol fs.table c cs) (n : Nat) :
    ∃ fs', seekLoop n c fs = (cs.getD (min n (cs.length - 1)) 0, fs') ∧ Goes fs fs' fs.table fs.data := by
  induction n generalizing c cs fs with
  | zero =>
    refine ⟨fs, ?_, .refl hs⟩
    rw [seekLoop, Nat.zero_min]
    cases cs with
    | nil => rw [hch.list]; rfl
    | cons x cs => rw [hch.head]; rfl
  | succ n ih =>
    rw [seekLoop]
    cases cs with
    | nil =>
      obtain rfl : c = 0 := hch.list
      exact ⟨fs, rfl, .refl hs⟩
    | cons x cs =>
      obtain rfl := hch.head
      have hc := hch.inVolume c List.mem_cons_self
      obtain ⟨fs1, hr, hg1⟩ := fat32NextCluster_goes hs hc
      simp only [hr]
      have htail := hg1.chain hch.tail
      cases cs with
      | nil =>
        rw [if_pos ((hch.next_end hs).2 rfl)]
        exact ⟨fs1, by rw [List.length_singleton, Nat.sub_self, Nat.min_zero]; rfl, hg1⟩
      | cons y cs =>
        rw [if_neg (mt (hch.next_end hs).1 (List.cons_ne_nil y cs))]
        obtain ⟨fs', hl, hg⟩ := ih hg1.sound htail
        refine ⟨fs', ?_, hg1.on hg⟩
        have hmin : min (n + 1) ((c :: y :: cs).length - 1) = min n ((y :: cs).length - 1) + 1 := by
          simp only [List.length_cons]
          omega
        rw [hl, hmin, List.getD_cons_succ]

end WuBuOS.Fat32
