import WuBuOS.Kernel.Fat32.Lookup

/-!
# Creating and deleting entries

What `fat32_create` and `fat32_delete` do to the table and to the clusters of a directory, as long as no
request fails.  A new entry goes to the first run of free slots that is long enough for it, in the
first cluster that has one (`place`); if none has, clusters of zeros are put behind the directory
(`DirGrows`).  Deleting an entry frees the chain of its file and marks its last slot.

* `fat32Create_ok`: what a create comes to, and exactly when it fails.
* `fat32Delete_missing` and `fat32Delete_ok`: a delete with nothing to delete, and of a file with its chain.
-/

namespace WuBuOS.Fat32

open Bytes
open Function (update update_of_ne update_self)

variable {fs fs' fs'' : Fs} {name : List UInt8} {c first : Nat} {ds ds' ds'' : List Nat}

/-! ## Room in a directory -/

/-- **A directory has grown**, by clusters that are all zero. -/
structure DirGrows (fs fs' : Fs) (first : Nat) (ds ds' : List Nat) : Prop extends
    Grows fs fs' ds ds' where
  chain : Chain fs'.vol fs'.table first ds'
  old : ∀ x ∈ ds, fs'.data x = fs.data x
  new : ∀ x ∈ ds', x ∉ ds → fs'.data x = fun _ => 0

theorem DirGrows.of_goes (hch : Chain fs.vol fs.table first ds)
    (hg : Goes fs fs' fs.table fs.data) : DirGrows fs fs' first ds ds where
  toGrows := hg.grows fun _ _ => rfl
  chain := hg.chain hch
  old := fun x _ => by rw [hg.data]
  new := fun x hx hn => absurd hx hn

theorem DirGrows.trans (h : DirGrows fs fs' first ds ds') (h' : DirGrows fs' fs'' first ds' ds'') :
    DirGrows fs fs'' first ds ds'' where
  toGrows := h.toGrows.trans h'.toGrows
  chain := h'.chain
  old := fun x hx => (h'.old x (h.begins.subset hx)).trans (h.old x hx)
  new := fun x hx hn => by
    by_cases hx' : x ∈ ds'
    · exact (h'.old x hx').trans (h.new x hx' hn)
    · exact h'.new x hx hx'

/-- A cluster is added to a directory, if there is one. -/
theorem extendDir_spec (hs : Sound fs) (hch : Chain fs.vol fs.table first ds) (hne : ds ≠ []) :
    ∃ new fs', extendDir (ds.getLast hne) fs = (new, fs') ∧
      ((new = 0 ∧ fs.free.card = 0 ∧ Goes fs fs' fs.table fs.data) ∨
        (new ≠ 0 ∧ DirGrows fs fs' first ds (ds ++ [new]) ∧ fs'.data new = fun _ => 0)) := by
  have hlast := hch.inVolume _ (List.getLast_mem hne)
  obtain ⟨new, fs1, ha, ⟨rfl, hfull, hg⟩ | ⟨hnew0, hnew, hg⟩⟩ :=
    fat32AllocClusters_spec hs (hlast.1.trans_lt hlast.2)
  · refine ⟨0, fs1, ?_, Or.inl ⟨rfl, hfull, hg⟩⟩
    rw [extendDir, ha]
    rfl
  · obtain ⟨fs2, fs3, hw2, hw3, hg3⟩ := fatWriteEntry_link hs hlast hnew hg
    obtain ⟨hgr, hch3⟩ := hg3.link hch hs hne hnew
    have hnv := (Fs.mem_free.1 hnew).1
    obtain ⟨fs4, hw4, hg4⟩ := writeCluster_ok hg3.sound hnv.1 fun _ => 0
    have hclip : fs3.vol.clip (fun _ => 0) = fun _ => 0 := by
      funext i
      rw [Volume.clip, ite_self]
    rw [hclip] at hg4
    have hmem : new ∈ ds ++ [new] := List.mem_append_right _ (List.mem_singleton_self new)
    have hnot : new ∉ ds := fun h => hch.used new h (Fs.mem_free.1 hnew).2
    have hzero : fs4.data new = fun _ => 0 := by
      rw [hg4.data, update_self]
    refine ⟨new, fs4, ?_, Or.inr ⟨hnew0, ⟨hgr.trans (hg4.grows fun x hx => ?_), hg4.chain hch3,
      fun x hx => ?_, fun x hx hn => ?_⟩, hzero⟩⟩
    · rw [extendDir, ha]
      cases new with
      | zero => exact absurd rfl hnew0
      | succ k => simp only [hw2, hw3, hw4]
    · rw [update_of_ne]
      rintro rfl
      exact hx hmem
    · rw [hg4.data, hg3.data, update_of_ne]
      rintro rfl
      exact hnot hx
    · rcases List.mem_append.1 hx with hx | hx
      · exact absurd hx hn
      · rw [List.mem_singleton.1 hx, hzero]

/-- The first run of free slots in the clusters of a directory, for so many long-name slots and an
entry. -/
def place (nLfn slots : Nat) (d : Nat → Buf) : List Nat → Option (Nat × Nat)
  | [] => none
  | c :: ds =>
    match findRun (d c) nLfn (slots - nLfn) 0 with
    | some i => some (c, i)
    | none => place nLfn slots d ds

theorem place_congr {nLfn slots : Nat} {d d' : Nat → Buf} (h : ∀ x ∈ ds, d' x = d x) :
    place nLfn slots d' ds = place nLfn slots d ds := by
  induction ds with
  | nil => rfl
  | cons c ds ih =>
    rw [place, place, h c List.mem_cons_self, ih fun x hx => h x (List.mem_cons_of_mem c hx)]

/-- A cluster of zeros has room if it is large enough. -/
theorem findRun_zero {nLfn slots : Nat} : findRun (fun _ => 0) nLfn (slots - nLfn) 0 = none ↔ slots ≤ nLfn := by
  rcases Nat.lt_or_ge nLfn slots with hlt | hge
  · obtain ⟨n, hn⟩ : ∃ n, slots - nLfn = n + 1 := ⟨slots - nLfn - 1, by omega⟩
    have hall : ((List.range (nLfn + 1)).all fun k => slotFree (fun _ => 0) (0 + k)) = true :=
      List.all_eq_true.2 fun _ _ => rfl
    rw [hn, findRun, if_pos hall]
    exact iff_of_false (Option.some_ne_none 0) (Nat.not_le.2 hlt)
  · rw [Nat.sub_eq_zero_of_le hge]
    exact iff_of_true rfl hge

/-- What is known of an entry once it has been put in its slots. -/
def placedInfo (name : List UInt8) (attr newCluster cluster i : Nat) : FileInfo where
  name := name.take maxName
  firstCluster := newCluster
  fileSize := 0
  attr := attr
  dirCluster := cluster
  dirOffset := i + (wubuLfnBuildEntries name).length

/-- The cluster in which an entry has been put. -/
def placedBuf (buf : Buf) (name : List UInt8) (attr newCluster i : Nat) (now : Nat × Nat) : Buf :=
  putEntry (putLfn i (wubuLfnBuildEntries name) buf) (i + (wubuLfnBuildEntries name).length) name attr
    newCluster now

theorem useSlots_ok (hs : Sound fs) (hc : 2 ≤ c) (buf : Buf) (i : Nat) (name : List UInt8) (attr newCluster : Nat) :
    ∃ now fs', useSlots buf c i name attr newCluster fs = (some (placedInfo name attr newCluster c i), fs') ∧
      Goes fs fs' fs.table (update fs.data c
        (fs.vol.clip (placedBuf buf name attr newCluster i now))) := by
  have hg1 := dosNow_ok hs
  obtain ⟨fs', hw, hg2⟩ := writeCluster_ok hg1.sound hc
    (placedBuf buf name attr newCluster i (dosNow fs).1)
  rw [hg1.table, hg1.data] at hg2
  refine ⟨(dosNow fs).1, fs', ?_, ?_⟩
  · rw [placedBuf] at hw
    simp only [useSlots, hw]
    rfl
  · rw [← hg1.shape.clip]
    exact hg1.trans hg2

/-- What the search for room comes to, from the cluster number `k` of the directory on: the directory
has grown, perhaps, and the entry has been put in its place, or there was none. -/
def Placed (fs fs' : Fs) (first : Nat) (ds : List Nat) (k : Nat) (name : List UInt8)
    (attr newCluster : Nat) (r : Option FileInfo) : Prop :=
  ∃ ds' fs₁, DirGrows fs fs₁ first ds ds' ∧
    ((r = none ∧ Goes fs₁ fs' fs₁.table fs₁.data) ∨
      ∃ dc i now, place (wubuLfnBuildEntries name).length (entriesPerCluster fs.vol) fs₁.data
          (ds'.drop k) = some (dc, i) ∧
        r = some (placedInfo name attr newCluster dc i) ∧
        Goes fs₁ fs' fs₁.table (update fs₁.data dc
          (fs₁.vol.clip (placedBuf (fs₁.data dc) name attr newCluster i now))))

/-- There is no room for an entry with so many long-name slots, neither in these clusters of the directory
nor in one that is put behind them. -/
def NoRoom (fs : Fs) (nLfn : Nat) (ds : List Nat) (free : Nat) : Prop :=
  place nLfn (entriesPerCluster fs.vol) fs.data ds = none ∧ (free = 0 ∨ entriesPerCluster fs.vol ≤ nLfn)

/-- **The entry is placed**, or the directory has grown until there was no room.  Every round of the loop
leaves a cluster of the directory behind, or takes one that was free. -/
theorem createLoop_ok {fuel attr newCluster : Nat} {pre rest : List Nat} (hs : Sound fs)
    (hch : Chain fs.vol fs.table first ds) (hds : ds = pre ++ c :: rest)
    (hfuel : rest.length + fs.free.card < fuel) :
    ∃ r fs', createLoop name attr newCluster fuel c fs = some (r, fs') ∧
      Placed fs fs' first ds pre.length name attr newCluster r ∧
      (r = none ↔ NoRoom fs (wubuLfnBuildEntries name).length (c :: rest) fs.free.card) := by
  induction fuel generalizing fs ds pre rest c with
  | zero => exact absurd hfuel (Nat.not_lt_zero _)
  | succ fuel ih =>
    have hcmem : c ∈ ds := by
      rw [hds]
      exact List.mem_append_right _ List.mem_cons_self
    have hc := hch.inVolume c hcmem
    obtain ⟨hr, hg1⟩ := readCluster_ok hs hc.1
    rw [createLoop, if_pos (hs.isCluster hc), bind_run (lift_run hr)]
    dsimp only
    rw [bind_run (get_run _), hg1.shape.entriesPerCluster]
    have hdrop : ∀ {l : List Nat}, ds <+: l → l.drop pre.length = c :: l.drop (pre.length + 1) := by
      rintro _ ⟨l, rfl⟩
      rw [← List.drop_drop, hds, List.append_assoc, List.drop_left]
      rfl
    cases hrun : findRun (fs.data c) (wubuLfnBuildEntries name).length
        (entriesPerCluster fs.vol - (wubuLfnBuildEntries name).length) 0 with
    | some i =>
      obtain ⟨now, fs2, hu, hg2⟩ := useSlots_ok hg1.sound hc.1 (fs.data c) i name attr newCluster
      refine ⟨_, fs2, lift_run hu, ⟨ds, fs.ask.2, .of_goes hch hg1, Or.inr ⟨c, i, now, ?_, rfl, ?_⟩⟩, ?_⟩
      · rw [hdrop List.prefix_rfl, place, hg1.data, hrun]
      · rw [hg1.data] at hg2 ⊢
        exact hg2
      · rw [NoRoom, place, hrun]
        exact iff_of_false (Option.some_ne_none _) fun h => absurd h.1 (Option.some_ne_none _)
    | none =>
      dsimp only
      -- there is no room here: on to the next cluster, which there may have to be one more for
      have hnext : ∀ {next : Nat} {fs2 : Fs} {ds2 rest2 : List Nat}, DirGrows fs fs2 first ds ds2 →
          ds2 = (pre ++ [c]) ++ next :: rest2 → rest2.length + fs2.free.card < fuel →
          (NoRoom fs2 (wubuLfnBuildEntries name).length (next :: rest2) fs2.free.card ↔
            NoRoom fs (wubuLfnBuildEntries name).length (c :: rest) fs.free.card) →
          ∃ r fs', createLoop name attr newCluster fuel next fs2 = some (r, fs') ∧
            Placed fs fs' first ds pre.length name attr newCluster r ∧
            (r = none ↔ NoRoom fs (wubuLfnBuildEntries name).length (c :: rest) fs.free.card) := by
        intro next fs2 ds2 rest2 hgr hds2 hfuel2 hroom
        obtain ⟨r, fs', hl, ⟨ds', fs1, hgr', hres⟩, hnone⟩ := ih hgr.sound hgr.chain hds2 hfuel2
        refine ⟨r, fs', hl, ⟨ds', fs1, hgr.trans hgr', hres.imp_right ?_⟩, hnone.trans hroom⟩
        rintro ⟨dc, i, now, hplace, hr, hg⟩
        refine ⟨dc, i, now, ?_, hr, hg⟩
        have hgg := hgr.trans hgr'
        rw [hdrop hgg.begins, place, hgg.old c hcmem, hrun]
        rw [List.length_append, List.length_singleton, hgr.shape.entriesPerCluster] at hplace
        exact hplace
      obtain ⟨fs2, hn, hg2⟩ := fat32NextCluster_goes hg1.sound (hg1.shape.inVolume.2 hc)
      rw [hg1.table] at hn
      have hg := hg1.on hg2
      have hsame := DirGrows.of_goes hch hg
      have hfree := hsame.free
      have htail : Chain fs.vol fs.table c (c :: rest) := by
        rw [hds] at hch
        exact hch.suffix
      cases rest with
      | nil =>
        have hne : ds ≠ [] := List.ne_nil_of_mem hcmem
        have hlast : ds.getLast hne = c := by
          simp only [hds, List.getLast_append_singleton]
        obtain ⟨new, fs3, he, hcase⟩ := extendDir_spec hg.sound (hg.chain hch) hne
        rw [hlast] at he
        have hnd : nextDirCluster c fs.ask.2 = (new, fs3) := by
          rw [nextDirCluster, hn]
          dsimp only
          rw [if_pos ((htail.next_end hs).2 rfl), he]
        rw [bind_run (lift_run hnd)]
        have hhere : place (wubuLfnBuildEntries name).length (entriesPerCluster fs.vol) fs.data [c] = none := by
          rw [place, hrun, place]
        rcases hcase with ⟨rfl, hfull, hg3⟩ | ⟨hnew, hgr3, hzero⟩
        · rw [hg.table, hg.data] at hg3
          refine ⟨none, fs3, rfl, ⟨ds, fs3, .of_goes hch (hg.trans hg3), Or.inl ⟨rfl, .refl hg3.sound⟩⟩,
            iff_of_true rfl ⟨hhere, Or.inl ?_⟩⟩
          rw [← hfull]
          omega
        · have hfree3 := hgr3.free
          rw [List.length_append, List.length_singleton] at hfree3
          rw [if_neg hnew]
          refine hnext (hsame.trans hgr3) (by rw [hds]) ?_ ?_
          · rw [List.length_nil] at hfuel ⊢
            omega
          · -- the new cluster has room unless it is too small
            have hempty := @findRun_zero (wubuLfnBuildEntries name).length (entriesPerCluster fs.vol)
            rw [NoRoom, NoRoom, hgr3.shape.entriesPerCluster, hg.shape.entriesPerCluster, hhere, place, hzero]
            rcases Nat.lt_or_ge (wubuLfnBuildEntries name).length (entriesPerCluster fs.vol) with hlt | hge
            · obtain ⟨i, hi⟩ := Option.ne_none_iff_exists'.1 (mt hempty.1 (Nat.not_le.2 hlt))
              rw [hi]
              refine iff_of_false (fun h => absurd h.1 (Option.some_ne_none _)) fun h => ?_
              rcases h.2 with h | h <;> omega
            · rw [hempty.2 hge]
              exact iff_of_true ⟨rfl, Or.inr hge⟩ ⟨rfl, Or.inr hge⟩
      | cons y rest =>
        have hy : nextOf fs.table c = y := htail.tail.head
        have hnd : nextDirCluster c fs.ask.2 = (y, fs2) := by
          rw [nextDirCluster, hn]
          dsimp only
          rw [if_neg (mt (htail.next_end hs).1 (List.cons_ne_nil y rest)), hy]
        have hy0 : y ≠ 0 := htail.tail.list.2.1
        rw [bind_run (lift_run hnd), if_neg hy0]
        refine hnext hsame (by rw [hds, List.append_assoc]; rfl) ?_ ?_
        · rw [List.length_cons] at hfuel
          omega
        · have hskip : place (wubuLfnBuildEntries name).length (entriesPerCluster fs.vol) fs.data (c :: y :: rest) =
              place (wubuLfnBuildEntries name).length (entriesPerCluster fs.vol) fs.data (y :: rest) := by
            rw [place, hrun]
          rw [NoRoom, NoRoom, hg.shape.entriesPerCluster, hg.data, hskip, Nat.add_right_cancel hfree]

/-! ## The functions -/

/-- What `fat32_create` does, of a file: it finds an entry; or there is no cluster for it; or it takes
one, and looks for room in the directory. -/
def Creates (fs fs' : Fs) (dir : Nat) (ds : List Nat) (name : List UInt8) (attr : Nat)
    (r : Option FileInfo) : Prop :=
  (r = fs.lookup ds name ∧ Goes fs fs' fs.table fs.data ∧
    (r = none → fs.free.card = 0)) ∨
  (fs.lookup ds name = none ∧ ∃ new fs₁, new ∈ fs.free ∧
    Goes fs fs₁ (update fs.table new clusterEoc) fs.data ∧
    Placed fs₁ fs' (dirOrRoot fs.vol dir) ds 0 name attr new r)

/-- What `fat32_create` does, of a file or of a directory: the cluster of a directory is written to
before it is entered. -/
def CreatesAny (fs fs' : Fs) (dir : Nat) (ds : List Nat) (name : List UInt8) (attr : Nat)
    (r : Option FileInfo) : Prop :=
  (r = fs.lookup ds name ∧ Goes fs fs' fs.table fs.data ∧
    (r = none → fs.free.card = 0)) ∨
  (fs.lookup ds name = none ∧ ∃ new d fs₁, new ∈ fs.free ∧ (∀ x, x ≠ new → d x = fs.data x) ∧
    (attr &&& attrDirectory = 0 → d = fs.data) ∧
    Goes fs fs₁ (update fs.table new clusterEoc) d ∧
    Placed fs₁ fs' (dirOrRoot fs.vol dir) ds 0 name attr new r)

theorem newEntryCluster_spec (dir attr : Nat) (hs : Sound fs) (htot : 2 < fs.vol.totalClusters) :
    ∃ new fs', newEntryCluster dir attr fs = (new, fs') ∧ ((new = 0 ∧ fs.free.card = 0 ∧ Goes fs fs' fs.table fs.data) ∨
        (new ≠ 0 ∧ new ∈ fs.free ∧ ∃ d, (∀ x, x ≠ new → d x = fs.data x) ∧ (attr &&& attrDirectory = 0 → d = fs.data) ∧
          Goes fs fs' (update fs.table new clusterEoc) d)) := by
  obtain ⟨new, fs1, ha, ⟨rfl, hfull, hg⟩ | ⟨hnew0, hnew, hg⟩⟩ := fat32AllocClusters_spec hs htot
  · refine ⟨0, fs1, ?_, Or.inl ⟨rfl, hfull, hg⟩⟩
    rw [newEntryCluster, ha]
    rfl
  have hne : newEntryCluster dir attr fs = if attr &&& attrDirectory = 0 then (new, fs1)
      else (if (initDirectory new dir fs1).1 then new else 0, (initDirectory new dir fs1).2) := by
    rw [newEntryCluster, ha]
    cases new with
    | zero => exact absurd rfl hnew0
    | succ k => rfl
  rw [hne]
  split
  · rename_i hattr
    exact ⟨new, fs1, rfl, Or.inr ⟨hnew0, hnew, fs.data, fun _ _ => rfl, fun _ => rfl, hg⟩⟩
  · rename_i hattr
    obtain ⟨hm, hg1⟩ := malloc_ok hg.sound
    rw [hg.table, hg.data] at hg1
    obtain ⟨fs2, hw, hg2⟩ := writeCluster_ok hg1.sound (Fs.mem_free.1 hnew).1.1
      (dotSlot (dotSlot (fun _ => 0) 0 [dot] new) 1 [dot, dot] dir)
    rw [hg1.table, hg1.data] at hg2
    refine ⟨new, fs2, ?_, Or.inr ⟨hnew0, hnew, _, fun x hx => update_of_ne hx _ _,
      fun h0 => absurd h0 hattr, (hg.trans hg1).trans hg2⟩⟩
    simp only [initDirectory, hm, hw, if_true]

/-- **`fat32_create`**, and when it fails. -/
theorem fat32Create_ok {dir attr : Nat} (hs : Sound fs) (hmounted : fs.vol.mounted = true)
    (hch : Chain fs.vol fs.table (dirOrRoot fs.vol dir) ds) (hne : ds ≠ []) (hname : name ≠ []) :
    ∃ r fs', fat32Create dir name attr fs = some (r, fs') ∧ CreatesAny fs fs' dir ds name attr r ∧
      (r = none ↔ fs.lookup ds name = none ∧
        (fs.free.card = 0 ∨ NoRoom fs (wubuLfnBuildEntries name).length ds (fs.free.card - 1))) := by
  rw [fat32Create, bind_run (get_run _), if_neg (by simp [hmounted, hname]), bind_run (get_run _)]
  obtain ⟨fs1, hf, hg1⟩ := fat32Find_dirOrRoot name hs hch
  rw [bind_run hf]
  cases hlook : fs.lookup ds name with
  | some info =>
    exact ⟨some info, fs1, rfl, Or.inl ⟨hlook.symm, hg1, fun h0 => by cases h0⟩,
      iff_of_false (Option.some_ne_none info) fun h => Option.some_ne_none info h.1⟩
  | none =>
    have hlast := hch.inVolume _ (List.getLast_mem hne)
    obtain ⟨new, fs2, hnew, hcase⟩ := newEntryCluster_spec (dirOrRoot fs.vol dir) attr hg1.sound
      (by rw [hg1.shape.totalClusters]; exact hlast.1.trans_lt hlast.2)
    dsimp only
    rw [bind_run (lift_run hnew)]
    have hfree1 : fs1.free = fs.free := by rw [Fs.free, Fs.free, hg1.shape.totalClusters, hg1.table]
    rw [hfree1, hg1.table, hg1.data] at hcase
    rcases hcase with ⟨rfl, hfull, hg2⟩ | ⟨hnew0, hmem, d, hd, hattr, hg2⟩
    · exact ⟨none, fs2, rfl, Or.inl ⟨hlook.symm, hg1.trans hg2, fun _ => hfull⟩, iff_of_true rfl ⟨rfl, Or.inl hfull⟩⟩
    · rw [if_neg hnew0, createIn]
      have hg := hg1.trans hg2
      obtain ⟨hm, hg3⟩ := malloc_ok hg.sound
      have hg := hg.on hg3
      rw [bind_run (lift_run hm)]
      have hdir : ∀ x ∈ ds, x ≠ new := by
        rintro x hx rfl
        exact hch.used x hx (Fs.mem_free.1 hmem).2
      have hch2 : Chain fs2.ask.2.vol fs2.ask.2.table (dirOrRoot fs.vol dir) ds :=
        hch.congr hg.shape fun x hx => by rw [hg.table, update_of_ne (hdir x hx)]
      obtain ⟨c, rest, rfl⟩ := List.exists_cons_of_ne_nil hne
      have hfuel := hch2.length_add_free hg.sound
      rw [List.length_cons] at hfuel
      obtain ⟨r, fs', hl, hplaced, hnone⟩ := @createLoop_ok _ name c _ _ maxSteps attr new [] rest hg.sound
        hch2 rfl (by omega)
      refine ⟨r, fs', hch.head ▸ hl, Or.inr ⟨hlook, new, d, fs2.ask.2, hmem, hd, hattr, hg, hplaced⟩, hnone.trans ?_⟩
      -- the cluster of the entry is one that the directory cannot have any more
      have hcard : fs2.ask.2.free.card = fs.free.card - 1 := by
        refine Nat.eq_sub_of_add_eq (card_free_of_took hg.shape hmem ?_ fun x hx => ?_)
        · rw [hg.table, update_self]
          decide
        · rw [hg.table, update_of_ne hx]
      have hfull : fs.free.card ≠ 0 := (Finset.card_pos.2 ⟨new, hmem⟩).ne'
      rw [NoRoom, NoRoom, hg.shape.entriesPerCluster, hcard, hg.data,
        place_congr fun x hx => hd x (hdir x hx), or_iff_right hfull, and_iff_right rfl]

theorem fat32Create_spec {dir attr : Nat} {r : Option FileInfo} (hs : Sound fs)
    (hmounted : fs.vol.mounted = true) (hattr : attr &&& attrDirectory = 0)
    (hch : Chain fs.vol fs.table (dirOrRoot fs.vol dir) ds) (hne : ds ≠ []) (hname : name ≠ [])
    (h : fat32Create dir name attr fs = some (r, fs')) : Creates fs fs' dir ds name attr r := by
  obtain ⟨r', fs'', hrun, hcreates, -⟩ := @fat32Create_ok fs name ds dir attr hs hmounted hch hne hname
  rw [hrun] at h
  cases h
  rcases hcreates with hsame | ⟨hnone, new, d, fs1, hnew, -, hd, hg, hp⟩
  · exact Or.inl hsame
  · rw [hd hattr] at hg
    exact Or.inr ⟨hnone, new, fs1, hnew, hg, hp⟩

/-- The cluster of a directory after one of its entries has been deleted. -/
def deletedBuf (buf : Buf) (i : Nat) : Buf := setSlotField buf i 0 1 0xE5

theorem markDeleted_ok (info : FileInfo) (hs : Sound fs) (hc : 2 ≤ info.dirCluster) :
    ∃ fs', markDeleted info fs = (true, fs') ∧ Goes fs fs' fs.table (update fs.data info.dirCluster
        (fs.vol.clip (deletedBuf (fs.data info.dirCluster) info.dirOffset))) := by
  obtain ⟨hm, hg1⟩ := malloc_ok hs
  obtain ⟨hr, hg2⟩ := readCluster_ok hg1.sound hc
  rw [hg1.table, hg1.data] at hg2
  rw [hg1.data] at hr
  have hg := hg1.trans hg2
  obtain ⟨fs', hw, hg3⟩ := writeCluster_ok hg2.sound hc
    (deletedBuf (fs.data info.dirCluster) info.dirOffset)
  rw [hg2.table, hg2.data] at hg3
  refine ⟨fs', ?_, ?_⟩
  · rw [deletedBuf] at hw
    simp only [markDeleted, hm, hr, hw]
  · rw [← hg.shape.clip]
    exact hg.trans hg3

/-- There is nothing to delete. -/
theorem fat32Delete_missing {dir : Nat} (hs : Sound fs) (hmounted : fs.vol.mounted = true)
    (hch : Chain fs.vol fs.table (dirOrRoot fs.vol dir) ds) (hlook : fs.lookup ds name = none) :
    ∃ fs', fat32Delete dir name fs = some (false, fs') ∧ Goes fs fs' fs.table fs.data := by
  obtain ⟨fs', hf, hg⟩ := fat32Find_dirOrRoot name hs hch
  rw [hlook] at hf
  refine ⟨fs', ?_, hg⟩
  rw [fat32Delete, bind_run (get_run _), if_neg (by rw [hmounted]; decide), bind_run (get_run _), bind_run hf]
  rfl

/-- **An entry is deleted**: the chain of its file is freed, and its slot marked. -/
theorem fat32Delete_ok {dir : Nat} {info : FileInfo} {cs : List Nat} (hs : Sound fs)
    (hmounted : fs.vol.mounted = true) (hch : Chain fs.vol fs.table (dirOrRoot fs.vol dir) ds)
    (hfound : fs.lookup ds name = some info) (hcs : Chain fs.vol fs.table info.firstCluster cs) :
    ∃ fs', fat32Delete dir name fs = some (true, fs') ∧
      Goes fs fs' (freedTable fs.table cs) (update fs.data info.dirCluster
        (fs.vol.clip (deletedBuf (fs.data info.dirCluster) info.dirOffset))) := by
  obtain ⟨fs1, hf, hg1⟩ := fat32Find_dirOrRoot name hs hch
  rw [hfound] at hf
  obtain ⟨hmem, -⟩ := lookup_spec fs.data hch.list.nodup hfound
  have hfree : ∃ fs2, (if 2 ≤ info.firstCluster then fat32FreeChain info.firstCluster else pure ()) fs1 =
      some ((), fs2) ∧ Goes fs fs2 (freedTable fs.table cs) fs.data := by
    cases cs with
    | nil =>
      rw [if_neg (by rw [show info.firstCluster = 0 from hcs.list]; decide)]
      refine ⟨fs1, rfl, hg1.sound, hg1.shape, hg1.table.trans ?_, hg1.data⟩
      funext x
      rw [freedTable, if_neg List.not_mem_nil]
    | cons x cs =>
      rw [if_pos (by rw [hcs.head]; exact (hcs.inVolume x List.mem_cons_self).1)]
      obtain ⟨fs2, hl, hg2⟩ := freeChainLoop_ok hg1.sound (hg1.chain hcs)
        (hcs.length_lt hs)
      rw [hg1.table, hg1.data] at hg2
      exact ⟨fs2, hl, hg1.trans hg2⟩
  obtain ⟨fs2, hl, hg2⟩ := hfree
  obtain ⟨fs3, hd, hg3⟩ := markDeleted_ok info hg2.sound (hch.inVolume _ hmem).1
  rw [hg2.table, hg2.data] at hg3
  refine ⟨fs3, ?_, ?_⟩
  · rw [fat32Delete, bind_run (get_run _), if_neg (by rw [hmounted]; decide), bind_run (get_run _), bind_run hf]
    dsimp only
    by_cases h2 : 2 ≤ info.firstCluster
    · rw [if_pos h2] at hl ⊢
      rw [bind_run hl]
      exact lift_run hd
    · rw [if_neg h2] at hl ⊢
      obtain rfl : fs1 = fs2 := congrArg Prod.snd (Option.some.inj hl)
      exact lift_run hd
  · rw [← hg2.shape.clip]
    exact hg2.trans hg3

end WuBuOS.Fat32
