import WuBuOS.Kernel.Fat32.Slots

/-!
# A long name is read back

`wubu_lfn_decode_chunk` and `wubu_lfn_reconstruct`, the other direction of `wubu_lfn_build_entries`.
A chunk is put into three fields of its entry, which do not overlap, so each of its characters is found
where it was put; the zero behind them, or the end of a full entry, says how many there are.  The
entries are stored with the last one first, and reading them from the back puts the chunks together in
the order of the name.
-/

namespace WuBuOS.Fat32

open Bytes

variable {name chunk : List UInt8} {maxEntries total offset outsz i j : Nat} {sum : UInt8}

/-! ## The other direction -/

def wubuLfnDecodeChunk (entry : Buf) : Option (List Nat) :=
  if get entry 11 1 ≠ attrLfn then none
  else some (((List.range lfnChars).map fun i => get entry (lfnCharPos i) 2).takeWhile
    fun c => c ≠ 0 ∧ c ≠ 0xFFFF)

/-- The first loop of `wubu_lfn_reconstruct`, over the entries from the back. -/
def lfnUnits : List Buf → List Nat → Option (List Nat)
  | [], units => some units
  | entry :: entries, units =>
    if lfnMaxName ≤ units.length then some units
    else
      match wubuLfnDecodeChunk entry with
      | none => none
      | some chunk => lfnUnits entries ((units ++ chunk).take lfnMaxName)

/-- `wubu_lfn_reconstruct`: what is in front of the zero in an output buffer of `outsz` bytes.  A
character that is no byte becomes `'?'`. -/
def wubuLfnReconstruct (entries : List Buf) (outsz : Nat) : Option (List UInt8) :=
  if outsz = 0 ∨ entries = [] then none
  else
    (lfnUnits entries.reverse []).map fun units =>
      (units.take (outsz - 1)).map fun c => if 0xFF < c then 63 else UInt8.ofNat c

/-- `wubu_lfn_build_entries`, into an array of `maxEntries` entries. -/
def wubuLfnBuildEntriesIn (maxEntries : Nat) (name : List UInt8) : List Buf :=
  if name.length = 0 ∨ lfnMaxName < name.length then []
  else if needsLfn name then
    let total := min ((name.length + lfnChars - 1) / lfnChars) maxEntries
    let checksum := lfnChecksum (lfn83 name)
    (List.range total).reverse.map fun k =>
      wubuLfnEncodeChunk ((name.drop (k * lfnChars)).take lfnChars) k total checksum
  else []

/-! ## One entry -/

theorem lfnCharPos_apart (h : i ≠ j) : lfnCharPos i + 2 ≤ lfnCharPos j ∨ lfnCharPos j + 2 ≤ lfnCharPos i := by
  simp only [lfnCharPos]
  split_ifs <;> omega

theorem lfnChar_lt (chunk : List UInt8) (i : Nat) : lfnChar chunk i < 2 ^ 16 := by
  have := (chunk.getD i 0).toNat_lt
  rw [lfnChar]
  split_ifs <;> omega

/-- Each character of an entry is where it was put. -/
theorem encodeChunk_char (hi : i < lfnChars) :
    get (wubuLfnEncodeChunk chunk offset total sum) (lfnCharPos i) 2 = lfnChar chunk i := by
  have hkeep : ∀ (l : List Nat) (e : Buf), i ∉ l →
      get (l.foldl (fun e i => put e (lfnCharPos i) 2 (lfnChar chunk i)) e) (lfnCharPos i) 2 =
        get e (lfnCharPos i) 2 := by
    intro l
    induction l with
    | nil => exact fun _ _ => rfl
    | cons k l ih =>
      intro e hl
      rw [List.mem_cons, not_or] at hl
      rw [List.foldl_cons, ih _ hl.2, get_put_outside (lfnCharPos_apart hl.1)]
  -- after the character itself is put, the ones behind it leave it alone
  have hsplit : List.range lfnChars = List.range (i + 1) ++ (List.range (lfnChars - (i + 1))).map (i + 1 + ·) := by
    rw [← List.range_add, Nat.add_sub_cancel' hi]
  rw [wubuLfnEncodeChunk, hsplit, List.foldl_append, hkeep, List.range_succ, List.foldl_append]
  · rw [List.foldl_cons, List.foldl_nil, get_put]
    exact Nat.mod_eq_of_lt (lfnChar_lt chunk i)
  · rintro hmem
    obtain ⟨k, -, hk⟩ := List.mem_map.1 hmem
    omega

/-- The characters of an entry: those of the chunk, and a zero behind them unless the entry is full. -/
theorem lfnChars_eq (hlen : chunk.length ≤ lfnChars) :
    ∃ rest, (List.range lfnChars).map (lfnChar chunk) = chunk.map UInt8.toNat ++ rest ∧
      (rest = [] ∨ rest.head? = some 0) := by
  have hsplit : List.range lfnChars =
      List.range chunk.length ++ (List.range (lfnChars - chunk.length)).map (chunk.length + ·) := by
    rw [← List.range_add, Nat.add_sub_cancel' hlen]
  have hown : (List.range chunk.length).map (lfnChar chunk) = chunk.map UInt8.toNat := by
    refine List.ext_getElem (by simp) fun k h1 h2 => ?_
    rw [List.length_map, List.length_range] at h1
    simp [lfnChar, h1]
  refine ⟨((List.range (lfnChars - chunk.length)).map (chunk.length + ·)).map (lfnChar chunk), ?_, ?_⟩
  · rw [hsplit, List.map_append, hown]
  · rcases Nat.eq_zero_or_pos (lfnChars - chunk.length) with h | h
    · exact Or.inl (by rw [h]; rfl)
    · obtain ⟨k, hk⟩ := Nat.exists_eq_succ_of_ne_zero (Nat.ne_of_gt h)
      exact Or.inr (by rw [hk, List.range_succ_eq_map]; simp [lfnChar])

/-- **A chunk is read back from its entry.** -/
theorem decode_encode (hlen : chunk.length ≤ lfnChars) (hnul : 0 ∉ chunk) :
    wubuLfnDecodeChunk (wubuLfnEncodeChunk chunk offset total sum) = some (chunk.map UInt8.toNat) := by
  obtain ⟨rest, heq, hrest⟩ := lfnChars_eq hlen
  have hread : ((List.range lfnChars).map fun i =>
      get (wubuLfnEncodeChunk chunk offset total sum) (lfnCharPos i) 2) = chunk.map UInt8.toNat ++ rest := by
    rw [← heq]
    exact List.map_congr_left fun i hi => encodeChunk_char (List.mem_range.1 hi)
  have hchunk : ∀ c ∈ chunk.map UInt8.toNat, decide (c ≠ 0 ∧ c ≠ 0xFFFF) = true := by
    intro c hc
    obtain ⟨b, hb, rfl⟩ := List.mem_map.1 hc
    have hpos : b.toNat ≠ 0 := fun h => hnul (by rwa [← UInt8.toNat_inj.mp (h.trans UInt8.toNat_zero.symm)])
    have := b.toNat_lt
    exact decide_eq_true ⟨hpos, by omega⟩
  rw [wubuLfnDecodeChunk, if_neg (not_not_intro (encodeChunk_attr ..)), hread, List.takeWhile_append_of_pos hchunk]
  rcases hrest with rfl | hrest
  · rw [List.takeWhile_nil, List.append_nil]
  · cases rest with
    | nil => cases hrest
    | cons c rest =>
      cases hrest
      rw [List.takeWhile_cons_of_neg (by decide), List.append_nil]

/-! ## All entries -/

/-- Entries that hold some chunks are read one behind the other. -/
theorem lfnUnits_flatten {entries : List Buf} {chunks : List (List Nat)}
    (h : List.Forall₂ (fun entry chunk => wubuLfnDecodeChunk entry = some chunk) entries chunks) :
    ∀ units : List Nat, (units ++ chunks.flatten).length ≤ lfnMaxName →
      lfnUnits entries units = some (units ++ chunks.flatten) := by
  induction h with
  | nil =>
    intro units _
    rw [lfnUnits, List.flatten_nil, List.append_nil]
  | @cons entry chunk entries chunks hentry _ ih =>
    intro units hlen
    rw [List.flatten_cons] at hlen ⊢
    rw [lfnUnits]
    split
    next hfull =>
      -- the name is complete, so there is nothing in the chunks that are left
      rw [List.length_append] at hlen
      rw [List.eq_nil_of_length_eq_zero (show (chunk ++ chunks.flatten).length = 0 by omega), List.append_nil]
    next =>
      rw [← List.append_assoc] at hlen ⊢
      simp only [hentry]
      rw [List.take_of_length_le (by rw [List.length_append] at hlen; omega), ih _ hlen]

/-- The chunks of a name, one behind the other. -/
theorem flatten_chunks (name : List UInt8) (total : Nat) :
    ((List.range total).map fun k => (name.drop (k * lfnChars)).take lfnChars).flatten =
      name.take (total * lfnChars) := by
  induction total with
  | zero => rw [Nat.zero_mul, List.take_zero]; rfl
  | succ total ih =>
    rw [List.range_succ, List.map_append, List.flatten_append, ih, Nat.succ_mul, List.take_add]
    simp

/-- The entries of the first chunks of a name are read back as what these chunks have of the name. -/
theorem reconstruct_chunks (hnul : 0 ∉ name) (hlen : name.length ≤ lfnMaxName) (hout : name.length < outsz)
    (htotal : total ≠ 0) :
    wubuLfnReconstruct ((List.range total).reverse.map fun k =>
        wubuLfnEncodeChunk ((name.drop (k * lfnChars)).take lfnChars) k total sum) outsz =
      some (name.take (total * lfnChars)) := by
  have hread : List.Forall₂ (fun entry chunk => wubuLfnDecodeChunk entry = some chunk)
      ((List.range total).map fun k =>
        wubuLfnEncodeChunk ((name.drop (k * lfnChars)).take lfnChars) k total sum)
      ((List.range total).map fun k => ((name.drop (k * lfnChars)).take lfnChars).map UInt8.toNat) := by
    rw [List.forall₂_map_left_iff, List.forall₂_map_right_iff, List.forall₂_same]
    exact fun k _ => decode_encode (List.length_take_le ..)
      fun hmem => hnul (List.mem_of_mem_drop (List.mem_of_mem_take hmem))
  have hflat : ((List.range total).map fun k =>
      ((name.drop (k * lfnChars)).take lfnChars).map UInt8.toNat).flatten =
      (name.take (total * lfnChars)).map UInt8.toNat := by
    have hmap := List.map_flatten (f := UInt8.toNat)
      (L := (List.range total).map fun k => (name.drop (k * lfnChars)).take lfnChars)
    rw [List.map_map, flatten_chunks] at hmap
    exact hmap.symm
  have hshort : (name.take (total * lfnChars)).length ≤ name.length := List.length_take_le' ..
  have hunits := lfnUnits_flatten hread [] (by rw [hflat, List.nil_append, List.length_map]; omega)
  have hnone : (List.range total).reverse.map (fun k =>
      wubuLfnEncodeChunk ((name.drop (k * lfnChars)).take lfnChars) k total sum) ≠ [] := by
    rwa [Ne, List.map_eq_nil_iff, List.reverse_eq_nil_iff, List.range_eq_nil]
  rw [hflat, List.nil_append] at hunits
  rw [wubuLfnReconstruct, if_neg (not_or.2 ⟨by omega, hnone⟩), ← List.map_reverse, List.reverse_reverse,
    hunits, Option.map_some, List.take_of_length_le (by rw [List.length_map]; omega), List.map_map]
  congr 1
  refine (List.map_congr_left fun c _ => ?_).trans (List.map_id _)
  have hbyte := c.toNat_lt
  rw [Function.comp_apply, if_neg (by omega), UInt8.ofNat_toNat, id]

/-- **What is read back from the entries of a name** is as much of it as there was room for. -/
theorem reconstruct_buildEntriesIn (hnul : 0 ∉ name) (hout : name.length < outsz)
    (hemits : wubuLfnBuildEntriesIn maxEntries name ≠ []) :
    wubuLfnReconstruct (wubuLfnBuildEntriesIn maxEntries name) outsz = some (name.take (maxEntries * lfnChars)) := by
  rw [wubuLfnBuildEntriesIn] at hemits ⊢
  split at hemits
  · exact absurd rfl hemits
  next hlen =>
  split at hemits
  case isFalse => exact absurd rfl hemits
  case isTrue hneeds =>
  rw [if_neg hlen, if_pos hneeds]
  rw [not_or, Nat.not_lt] at hlen
  rw [Ne, List.map_eq_nil_iff, List.reverse_eq_nil_iff, List.range_eq_nil] at hemits
  rw [reconstruct_chunks hnul hlen.2 hout hemits, Option.some_inj, List.take_eq_take_iff]
  rw [lfnChars] at *
  omega

/-- **The long name of a file is read back from its entries.** -/
theorem lfn_roundtrip (hnul : 0 ∉ name) (hout : name.length < outsz) (hemits : wubuLfnBuildEntries name ≠ []) :
    wubuLfnReconstruct (wubuLfnBuildEntries name) outsz = some name := by
  have hlen : name.length ≤ lfnMaxName := by
    by_contra h
    exact hemits (if_pos (Or.inr (Nat.lt_of_not_ge h)))
  change wubuLfnBuildEntriesIn lfnMaxEntries name ≠ [] at hemits
  change wubuLfnReconstruct (wubuLfnBuildEntriesIn lfnMaxEntries name) outsz = _
  rw [reconstruct_buildEntriesIn hnul hout hemits, List.take_of_length_le]
  rwa [lfnMaxName] at hlen

/-- `thirteen.char` fills its entry, so there is no zero in it. -/
theorem lfn_roundtrip_thirteen :
    wubuLfnReconstruct (wubuLfnBuildEntries [116, 104, 105, 114, 116, 101, 101, 110, 46, 99, 104, 97, 114]) 14 =
      some [116, 104, 105, 114, 116, 101, 101, 110, 46, 99, 104, 97, 114] :=
  lfn_roundtrip (by decide) (by decide) (by decide)

end WuBuOS.Fat32
