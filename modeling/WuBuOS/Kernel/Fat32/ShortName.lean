import WuBuOS.Kernel.Fat32.FreeCount
import WuBuOS.Kernel.Fat32.Slots

/-!
# The short name in the checksum

The slots of a long name have the checksum of the short name they go with.  `wubu_lfn_build_entries` does
not ask for that name; it works it out on its own (`lfn83`).  It differs from `name_to_83` where there is
no dot after eight characters or fewer: `name_to_83` goes on, and has the next three as the extension.
-/

namespace WuBuOS.Fat32

open Bytes

variable {fs fs' : Fs} {buf : Buf} {name s : List UInt8} {c i j n attr new : Nat}
  {info : FileInfo}

/-! ## Two short names -/

/-- The two mappings to short names do the same: there is a dot after eight characters or fewer, or
nothing but blanks where `name_to_83` finds an extension. -/
def OneShortName (name : List UInt8) : Prop :=
  dot ∈ name.take 9 ∨ ∀ c ∈ (name.drop 8).take 3, c = blank

@[simp]
theorem length_padTo (h : s.length ≤ n) : (padTo n s).length = n := by
  rw [padTo, List.length_append, List.length_replicate]
  omega

@[simp]
theorem length_nameTo83 (name : List UInt8) : (nameTo83 name).length = 11 := by
  have hbase : (((name.take 8).takeWhile (· ≠ dot)).map toupper).length ≤ 8 := by
    rw [List.length_map]
    exact (List.takeWhile_prefix _).length_le.trans (List.length_take_le ..)
  rw [nameTo83]
  split
  · rfl
  · split
    · rfl
    · rw [List.length_append, length_padTo hbase, length_padTo]
      rw [List.length_map]
      exact List.length_take_le ..

theorem toupper_eq_blank {c : UInt8} : toupper c = blank ↔ c = blank := by
  rw [toupper, blank]
  grind

/-- What is padded is all blank. -/
theorem padTo_eq_nil (h : s.length ≤ n) : padTo n s = padTo n [] ↔ ∀ c ∈ s, c = blank := by
  rw [padTo, padTo, List.nil_append, List.length_nil, Nat.sub_zero, List.eq_replicate_iff]
  constructor
  · exact fun hall c hc => hall.2 c (List.mem_append_left _ hc)
  · intro hall
    refine ⟨by rw [List.length_append, List.length_replicate]; omega, fun c hc => ?_⟩
    rcases List.mem_append.1 hc with hc | hc
    · exact hall c hc
    · exact List.eq_of_mem_replicate hc

/-- The base ends at a dot. -/
theorem base_dot (n : Nat) (name : List UInt8) :
    (name.drop ((name.take n).takeWhile (· ≠ dot)).length).head? = some dot ↔ dot ∈ name.take (n + 1) := by
  induction n generalizing name with
  | zero => cases name <;> simp [eq_comm]
  | succ n ih =>
    cases name with
    | nil => simp
    | cons c name =>
      rw [List.take_succ_cons, List.take_succ_cons, List.mem_cons]
      by_cases hc : c = dot
      · simp [hc]
      · rw [List.takeWhile_cons_of_pos (by simpa using hc), List.length_cons, List.drop_succ_cons, ih]
        exact ⟨Or.inr, fun h => h.resolve_left fun h => hc h.symm⟩

/-- There is no dot, and the base is as long as it can be. -/
theorem base_full (h : dot ∉ name.take n) : name.drop ((name.take n).takeWhile (· ≠ dot)).length = name.drop n := by
  have hall : (name.take n).takeWhile (· ≠ dot) = name.take n := by
    rw [List.takeWhile_eq_self_iff]
    intro c hc
    exact decide_eq_true fun hdot => h (hdot ▸ hc)
  rw [hall, List.length_take]
  rcases Nat.le_total n name.length with hle | hle
  · rw [Nat.min_eq_left hle]
  · rw [Nat.min_eq_right hle, List.drop_length, List.drop_of_length_le hle]

/-- **When the two mappings agree.** -/
theorem nameTo83_eq_iff (h1 : name ≠ [dot]) (h2 : name ≠ [dot, dot]) :
    nameTo83 name = lfn83 name ↔ OneShortName name := by
  rw [nameTo83, if_neg h1, if_neg h2, lfn83, OneShortName]
  dsimp only
  have hdot := base_dot 8 name
  by_cases hmem : dot ∈ name.take 9
  · rw [if_pos (hdot.2 hmem), if_pos (hdot.2 hmem)]
    exact iff_of_true rfl (Or.inl hmem)
  · have hno : dot ∉ name.take 8 := fun h => hmem (List.take_subset_take_left _ (by decide) h)
    rw [if_neg (mt hdot.1 hmem), if_neg (mt hdot.1 hmem), List.append_right_inj, List.map_nil,
      padTo_eq_nil (by rw [List.length_map]; exact List.length_take_le ..), base_full hno,
      or_iff_right hmem]
    constructor
    · exact fun h c hc => toupper_eq_blank.mp (h _ (List.mem_map_of_mem hc))
    · intro h c hc
      obtain ⟨b, hb, rfl⟩ := List.mem_map.1 hc
      exact toupper_eq_blank.2 (h b hb)

/-! ## The slots of a new entry -/

/-- The slots of a long name have the checksum of the short name in slot `i`, which is the one they go
with. -/
def ChecksumsAt (buf : Buf) (nLfn i : Nat) : Prop :=
  ∀ j, i ≤ j + nLfn → j < i → slotField buf j 13 1 = (lfnChecksum (slotName83 buf i)).toNat

theorem lfn_checksum {e : Buf} (h : e ∈ wubuLfnBuildEntries name) : get e 13 1 = (lfnChecksum (lfn83 name)).toNat := by
  rw [wubuLfnBuildEntries] at h
  split at h
  · cases h
  · split at h
    · obtain ⟨k, -, rfl⟩ := List.mem_map.1 h
      rw [encodeChunk_get _ _ _ _ (by decide), get_put]
      exact Nat.mod_eq_of_lt (UInt8.toNat_lt _)
    · cases h

theorem putEntry_name83 (now : Nat × Nat) : slotName83 (putEntry buf i name attr new now) i = nameTo83 name := by
  refine List.ext_getElem (by simp [slotName83]) fun k h1 h2 => ?_
  rw [length_nameTo83] at h2
  simp only [slotName83, List.getElem_map, List.getElem_range, putEntry, setSlotField, put]
  rw [write_outside (by omega), write_outside (by omega), write_outside (by omega), write_outside (by omega),
    write_outside (by omega), write_outside (by omega), write_outside (by omega), write_outside (by omega),
    write_inside h2]
  simp [h2]

/-- What is in the slots of a new entry. -/
theorem placedBuf_checksum (now : Nat × Nat) {j : Nat} (h1 : i ≤ j) (h2 : j < i + (wubuLfnBuildEntries name).length) :
    slotField (placedBuf buf name attr new i now) j 13 1 = (lfnChecksum (lfn83 name)).toNat := by
  have hk : j - i < (wubuLfnBuildEntries name).length := by omega
  rw [placedBuf, (putEntry_other (by omega)).field (by decide), ← lfn_checksum (List.getElem_mem hk), slotField]
  refine get_shift fun k hk' => ?_
  rw [Nat.add_assoc, putLfn_slot _ (by rw [dirEntrySize]; omega), if_pos ⟨h1, h2⟩, List.getD_eq_getElem _ _ hk]

theorem placedBuf_checksumsAt (now : Nat × Nat) (h : wubuLfnBuildEntries name ≠ []) :
    ChecksumsAt (placedBuf buf name attr new i now) (wubuLfnBuildEntries name).length
        (i + (wubuLfnBuildEntries name).length) ↔
      lfnChecksum (lfn83 name) = lfnChecksum (nameTo83 name) := by
  have hshort : slotName83 (placedBuf buf name attr new i now) (i + (wubuLfnBuildEntries name).length) =
      nameTo83 name := putEntry_name83 now
  have hpos := List.length_pos_of_ne_nil h
  rw [ChecksumsAt, hshort, ← UInt8.toNat_inj]
  constructor
  · intro hall
    rw [← hall i (Nat.le_refl _) (by omega)]
    exact (placedBuf_checksum now (Nat.le_refl i) (by omega)).symm
  · intro heq j h1 h2
    rw [← heq]
    exact placedBuf_checksum now (by omega) h2

theorem checksumsAt_congr {buf' : Buf} {nLfn : Nat} (hsame : ∀ j ≤ i, SameSlot buf buf' j) :
    ChecksumsAt buf' nLfn i ↔ ChecksumsAt buf nLfn i := by
  refine forall_congr' fun j => imp_congr_right fun _ => imp_congr_right fun h => ?_
  rw [(hsame j (Nat.le_of_lt h)).field (by decide), (hsame i (Nat.le_refl i)).entry.name83]

/-! ## The runs that create one -/

/-- What is on the disk once the slots have been used. -/
theorem useSlots_inv (hc : 2 ≤ c) (h : useSlots buf c i name attr new fs = (some info, fs')) :
    fs'.vol = fs.vol ∧ info = placedInfo name attr new c i ∧ ∃ now, ∀ x < fs.vol.sectorsPerCluster * sectorSize,
        fs'.data c x = placedBuf buf name attr new i now x := by
  rw [useSlots] at h
  have hfs' := (Prod.mk.inj h).2
  have hinfo := (Prod.mk.inj h).1
  split at hinfo
  · rename_i hok
    have hok' : (dosNow fs).2.ask.1.ok = true := hok
    have hvol : fs'.vol = fs.vol := by rw [← hfs']; rfl
    refine ⟨hvol, (Option.some.inj hinfo).symm, (dosNow fs).1, fun x hx => ?_⟩
    rw [Fs.data, if_pos hc, hvol, sectors, if_pos hx, ← hfs', writeCluster, blkWrite]
    rw [if_pos hok', placedBuf]
    exact write_inside hx
  · exact absurd hinfo (by simp)

/-- An entry that is created has been put in its slots at the end. -/
theorem createLoop_inv {fuel : Nat} (h : createLoop name attr new fuel c fs = some (some info, fs')) :
    ∃ buf dc i fs1, 2 ≤ dc ∧ i + (wubuLfnBuildEntries name).length < entriesPerCluster fs1.vol ∧
      useSlots buf dc i name attr new fs1 = (some info, fs') := by
  induction fuel generalizing c fs with
  | zero => cases h
  | succ fuel ih =>
    rw [createLoop] at h
    split at h
    · rename_i hc
      obtain ⟨buf, fs1, -, h⟩ := bind_inv h
      cases buf with
      | none => cases h
      | some buf =>
        obtain ⟨_, _, hget, h⟩ := bind_inv h
        rw [get_run] at hget
        cases hget
        cases hrun : findRun buf (wubuLfnBuildEntries name).length
            (entriesPerCluster fs1.vol - (wubuLfnBuildEntries name).length) 0 with
        | some i =>
          rw [hrun] at h
          obtain ⟨-, hlt, -⟩ := findRun_free hrun
          exact ⟨buf, c, i, fs1, hc.1, by omega, Option.some.inj h⟩
        | none =>
          rw [hrun] at h
          obtain ⟨next, fs2, -, h⟩ := bind_inv h
          split at h
          · cases h
          · exact ih h
    · cases h

theorem fat32Create_inv {dir : Nat} {fs0 : Fs} (hnone : fat32Find (dirOrRoot fs.vol dir) name fs = some (none, fs0))
    (h : fat32Create dir name attr fs = some (some info, fs')) :
    ∃ buf dc i new fs1, 2 ≤ dc ∧ i + (wubuLfnBuildEntries name).length < entriesPerCluster fs1.vol ∧
      useSlots buf dc i name attr new fs1 = (some info, fs') := by
  rw [fat32Create, bind_run (get_run _)] at h
  split at h
  · cases h
  · rw [bind_run (get_run _), bind_run hnone] at h
    obtain ⟨new, fs1, -, h⟩ := bind_inv h
    split at h
    · cases h
    · rw [createIn] at h
      obtain ⟨m, fs2, -, h⟩ := bind_inv h
      cases m with
      | none => cases h
      | some _ =>
        obtain ⟨buf, dc, i, fs3, hrest⟩ := createLoop_inv h
        exact ⟨buf, dc, i, new, fs3, hrest⟩

/-- **What is in the checksums** of an entry that has been created. -/
theorem created_checksumsAt {dir : Nat} {fs0 : Fs} (h : wubuLfnBuildEntries name ≠ [])
    (hnone : fat32Find (dirOrRoot fs.vol dir) name fs = some (none, fs0))
    (hcreate : fat32Create dir name attr fs = some (some info, fs'))
    (hbytes : fs'.vol.bytesPerCluster = fs'.vol.sectorsPerCluster * sectorSize) :
    ChecksumsAt (fs'.data info.dirCluster) (wubuLfnBuildEntries name).length info.dirOffset ↔
      lfnChecksum (lfn83 name) = lfnChecksum (nameTo83 name) := by
  obtain ⟨buf, dc, i, new, fs1, hdc, hslots, huse⟩ := fat32Create_inv hnone hcreate
  obtain ⟨hvol, rfl, now, hdata⟩ := useSlots_inv hdc huse
  refine (checksumsAt_congr fun j hj o ho => hdata _ ?_).trans (placedBuf_checksumsAt now h)
  -- the slot is one of the cluster
  have hcluster : (j + 1) * dirEntrySize ≤ fs1.vol.bytesPerCluster :=
    (Nat.mul_le_mul_right _ (Nat.succ_le_of_lt (lt_of_le_of_lt hj hslots))).trans (Nat.div_mul_le_self ..)
  rw [hvol] at hbytes
  rw [← hbytes]
  rw [Nat.succ_mul] at hcluster
  omega

/-- **The checksum agrees with the short entry**: there is one short name, and whenever `fat32_create` makes
an entry, the slots of its long name have the checksum of what is in its short slot. -/
def ChecksumsRight (name : List UInt8) : Prop :=
  nameTo83 name = lfn83 name ∧
  ∀ fs fs₀ fs' dir attr info, fat32Find (dirOrRoot fs.vol dir) name fs = some (none, fs₀) →
    fat32Create dir name attr fs = some (some info, fs') →
    fs'.vol.bytesPerCluster = fs'.vol.sectorsPerCluster * sectorSize →
    ChecksumsAt (fs'.data info.dirCluster) (wubuLfnBuildEntries name).length info.dirOffset

/-- **When the checksums are right.** -/
theorem checksumsRight_iff (h : wubuLfnBuildEntries name ≠ []) : ChecksumsRight name ↔ OneShortName name := by
  have hdots : name ≠ [dot] ∧ name ≠ [dot, dot] := by
    constructor <;> (rintro rfl; exact h rfl)
  have hone := nameTo83_eq_iff hdots.1 hdots.2
  rw [ChecksumsRight, hone]
  refine and_iff_left_of_imp fun hname fs fs₀ fs' dir attr info hnone hcreate hbytes => ?_
  rw [created_checksumsAt h hnone hcreate hbytes, hone.2 hname]

theorem checksumsRight_iff_thirteen : ChecksumsRight [116, 104, 105, 114, 116, 101, 101, 110, 46, 99, 104, 97, 114] ↔
      OneShortName [116, 104, 105, 114, 116, 101, 101, 110, 46, 99, 104, 97, 114] :=
  checksumsRight_iff (by decide)

/-- `longfilename.txt`. -/
def longFilename : List UInt8 := [108, 111, 110, 103, 102, 105, 108, 101, 110, 97, 109, 101, 46, 116, 120, 116]

theorem lookup_zero {d : Nat → Buf} {slots : Nat} (h : d c = fun _ => 0) (lfn : Lfn) :
    lookup slots d name [c] lfn = none := by
  rw [lookup, h]
  cases slots with
  | zero => rfl
  | succ n => rfl

/-- **A file in an empty directory.** -/
theorem Empty.create {m : Fs} (h : Empty m) (hname : name ≠ []) (hfree : 0 < m.free.card)
    (hroom : (wubuLfnBuildEntries name).length < entriesPerCluster m.vol) :
    ∃ info fs0 fs', fat32Find (dirOrRoot m.vol 0) name m = some (none, fs0) ∧
      fat32Create 0 name 0 m = some (some info, fs') ∧ Sound fs' := by
  have hch : Chain m.vol m.table (dirOrRoot m.vol 0) [m.vol.rootCluster] := h.chain
  have hlook : m.lookup [m.vol.rootCluster] name = none := lookup_zero h.data noLfn
  obtain ⟨fs0, hfind, -⟩ := fat32Find_dirOrRoot name h.sound hch
  obtain ⟨r, fs', hrun, hcreates, hnone⟩ :=
    @fat32Create_ok m name _ 0 0 h.sound h.mounted hch (List.cons_ne_nil _ _) hname
  have hsome : r ≠ none := by
    intro h0
    rcases (hnone.1 h0).2 with hfull | ⟨hplace, -⟩
    · omega
    · rw [place, h.data, place] at hplace
      split at hplace
      · cases hplace
      · rename_i hrun
        exact absurd (findRun_zero.1 hrun) (Nat.not_le.2 hroom)
  obtain ⟨info, rfl⟩ := Option.ne_none_iff_exists'.1 hsome
  refine ⟨info, fs0, fs', hlook ▸ hfind, hrun, ?_⟩
  rcases hcreates with ⟨-, hg, -⟩ | ⟨-, _, _, _, -, -, -, -, _, _, -, ⟨-, hg⟩ | ⟨_, _, _, -, -, hg⟩⟩
  · exact hg.sound
  · exact hg.sound
  · exact hg.sound

set_option maxRecDepth 4000 in
/-- **A slot with the checksum of another name.**  `longfilename.txt` is entered as `LONGFILE.NAM`, and the
checksum before it is that of `LONGFILE`. -/
theorem created_longFilename :
    ∃ f m info fs₀ fs', fat32Format 100 none blankFs = (true, f) ∧ fat32Mount 100 f = (true, m) ∧
      fat32Find (dirOrRoot m.vol 0) longFilename m = some (none, fs₀) ∧
      fat32Create 0 longFilename 0 m = some (some info, fs') ∧
      ¬ChecksumsAt (fs'.data info.dirCluster) (wubuLfnBuildEntries longFilename).length info.dirOffset ∧
      ¬ChecksumsRight longFilename := by
  obtain ⟨f, m, hf, hm, hempty, hper, hcard⟩ := blankFs_hundred
  have hentries : wubuLfnBuildEntries longFilename ≠ [] := by decide
  have hroom : (wubuLfnBuildEntries longFilename).length < entriesPerCluster m.vol := by
    rw [hper]
    decide
  obtain ⟨info, fs₀, fs', hnone, hcreate, hs'⟩ := hempty.create (by decide) hcard hroom
  have hsums : lfnChecksum (lfn83 longFilename) ≠ lfnChecksum (nameTo83 longFilename) := by decide
  have hnot : ¬ChecksumsAt (fs'.data info.dirCluster) (wubuLfnBuildEntries longFilename).length
      info.dirOffset := by
    rwa [created_checksumsAt hentries hnone hcreate hs'.bytesPerCluster]
  exact ⟨f, m, info, fs₀, fs', hf, hm, hnone, hcreate, hnot, fun hr =>
    hnot (hr.2 _ _ _ _ _ _ hnone hcreate hs'.bytesPerCluster)⟩

end WuBuOS.Fat32
