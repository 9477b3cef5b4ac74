import WuBuOS.Firmware.PeImage
import WuBuOS.Firmware.MemoryCalls

/-!
# The loader keeps to its buffers

`fw_pe_load` checks what it uses, but not all of it: the section table may be behind the end of the file, a
section without a virtual size is copied whole, and the sums of the relocation directory are of 32 bits and may
wrap, as may the preferred base with the size of the image.  `Fits` is that none of this happens, and
`confined_iff` says that the loader keeps to the file and to the pages of the image, and gives them back when it
refuses, just then.
-/

namespace WuBuOS.Firmware

open Guarded

variable {h : PeHeaders} {f : Buffer} {delta off fuel : Nat} {m m0 : Nat → UInt8}

/-! ## Relocations -/

theorem entryRoom_spec (hr : Relocates h delta) (hoff : off + 8 ≤ h.relocSize) :
    blockEntries h off ≤ h.sizeOfImage ∧ blockEntries h off + 2 * entryRoom h off ≤ h.pages * efiPageSize ∧
      h.pages * efiPageSize < blockEntries h off + 2 * entryRoom h off + 2 := by
  have hin := hr.inside
  have hsize := h.size_le
  unfold entryRoom blockEntries
  omega

/-- The entries of a block that are inside the image. -/
theorem entries_checks (hs : h.Sound) (hr : Relocates h delta) (hoff : off + 8 ≤ h.relocSize) {n : Nat}
    (hn : blockEntries h off + 2 * n ≤ h.pages * efiPageSize) (page : Nat) :
    Checks 2 (relocEntry h delta (h.pages * efiPageSize) page) (moveEntry h delta page) (EntryFits delta page) n
      (blockEntries h off) := by
  have hin := hr.inside
  have hentry : ∀ i < n, ∀ m, _ := fun i hi m => relocEntry_checks delta page
    h.size_le hs.pages_le (show 8 ≤ h.sizeOfImage by omega)
    (show blockEntries h off + 2 * i + 2 ≤ h.pages * efiPageSize by omega) m
  exact ⟨fun i hi m => (hentry i hi m).1, fun i hi m => (hentry i hi m).2⟩

/-- The loop over the entries of a block. -/
def blockLoop (h : PeHeaders) (delta off n : Nat) (m : Nat → UInt8) : Except Stop (Nat → UInt8) :=
  each 2 (relocEntry h delta (h.pages * efiPageSize) (blockPage h off m)) n (blockEntries h off) m

/-- A block that does not wrap. -/
theorem blockLoop_inside (hs : h.Sound) (hr : Relocates h delta) (hoff : off + 8 ≤ h.relocSize) {n : Nat}
    (hn : blockEntries h off + 2 * n ≤ h.pages * efiPageSize) :
    (EntriesFit h delta off n m → blockLoop h delta off n m = answer (moveEntries h delta off n m)) ∧
      (¬EntriesFit h delta off n m → blockLoop h delta off n m = .error .wild) :=
  ⟨each_eq (entries_checks hs hr hoff hn _), each_wild (entries_checks hs hr hoff hn _)⟩

/-- **A block with more entries than there is room for leaves the image, if it is not refused before.** -/
theorem blockLoop_outside (hs : h.Sound) (hr : Relocates h delta) (hoff : off + 8 ≤ h.relocSize) {n : Nat}
    (hn : entryRoom h off < n) :
    (EntriesFit h delta off (entryRoom h off) m ∧ moveEntries h delta off (entryRoom h off) m = none →
        blockLoop h delta off n m = .error .refused) ∧
      (¬(EntriesFit h delta off (entryRoom h off) m ∧ moveEntries h delta off (entryRoom h off) m = none) →
        blockLoop h delta off n m = .error .wild) := by
  obtain ⟨-, hroom, hend⟩ := entryRoom_spec hr hoff
  obtain ⟨hfit, hunfit⟩ := blockLoop_inside (m := m) hs hr hoff hroom
  obtain ⟨k, rfl⟩ : ∃ k, n = entryRoom h off + (k + 1) := ⟨n - entryRoom h off - 1, by omega⟩
  have hsplit : blockLoop h delta off (entryRoom h off + (k + 1)) m =
      (blockLoop h delta off (entryRoom h off) m).bind _ := each_add _ _ _ _ _
  rw [hsplit]
  refine ⟨fun ⟨he, hnone⟩ => by rw [hfit he, hnone]; rfl, fun hne => ?_⟩
  by_cases he : EntriesFit h delta off (entryRoom h off) m
  · rw [hfit he]
    cases hm : moveEntries h delta off (entryRoom h off) m with
    | none => exact absurd ⟨he, hm⟩ hne
    | some t =>
      -- The next entry is outside of the image.
      show (relocEntry ..).bind _ = _
      unfold relocEntry
      rw [Buffer.get_wild (show h.pages * efiPageSize < blockEntries h off + 2 * entryRoom h off + 2 from hend)]
      rfl
  · rw [hunfit he]
    rfl

/-- The loop over the blocks at a block. -/
theorem relocBlocks_succ (hs : h.Sound) (hr : Relocates h delta) (hoff : off ≤ h.relocSize) :
    relocBlocks h delta (h.pages * efiPageSize) (fuel + 1) off m = if off + 8 ≤ h.relocSize then
        if blockSize h off m < 8 ∨ h.relocSize < add32 off (blockSize h off m) then .error .refused
        else (blockLoop h delta off ((blockSize h off m - 8) / 2) m).bind
          (relocBlocks h delta (h.pages * efiPageSize) fuel (add32 off (blockSize h off m)))
      else .ok m := by
  have hin := hr.inside
  have hsize := h.size_le
  have hle := hs.le
  have hadd : add32 off 8 = off + 8 := Nat.mod_eq_of_lt (by omega)
  rw [relocBlocks, hadd]
  by_cases hroom : off + 8 ≤ h.relocSize
  · rw [if_pos hroom, if_pos hroom,
      Buffer.get_eq (show h.relocRva + off + 4 ≤ (Buffer.mk (h.pages * efiPageSize) m).size by show _ ≤ h.pages * efiPageSize; omega),
      Buffer.get_eq (show h.relocRva + off + 4 + 4 ≤ (Buffer.mk (h.pages * efiPageSize) m).size by show _ ≤ h.pages * efiPageSize; omega)]
    rfl
  · rw [if_neg hroom, if_neg hroom]

/-- The image after a block that fits, `none` if it is refused. -/
def nextImage (h : PeHeaders) (delta off : Nat) (m : Nat → UInt8) : Option (Nat → UInt8) :=
  if off + blockSize h off m < 2 ^ 32 then moveEntries h delta off ((blockSize h off m - 8) / 2) m else none

/-- **A block that is taken**: one that fits is refused or leads to the next one, one that does not goes
wrong. -/
theorem relocBlocks_taken (hs : h.Sound) (hr : Relocates h delta) (ht : Taken h off m) (hoff : off ≤ h.relocSize)
    (fuel : Nat) :
    (BlockFits h delta off m → relocBlocks h delta (h.pages * efiPageSize) (fuel + 1) off m =
        (answer (nextImage h delta off m)).bind
          (relocBlocks h delta (h.pages * efiPageSize) fuel (off + blockSize h off m))) ∧
      (¬BlockFits h delta off m → relocBlocks h delta (h.pages * efiPageSize) (fuel + 1) off m = .error .wild) := by
  have hin := hr.inside
  have hsize := h.size_le
  have hle := hs.pages_le
  have h8 := ht.size
  have hinside := ht.inside
  rw [relocBlocks_succ hs hr hoff, if_pos ht.room, if_neg (by omega)]
  unfold BlockFits nextImage
  unfold add32 at hinside ⊢
  by_cases hwrap : off + blockSize h off m < 2 ^ 32
  · rw [if_pos hwrap, if_pos hwrap]
    rw [Nat.mod_eq_of_lt hwrap] at hinside ⊢
    have hn : blockEntries h off + 2 * ((blockSize h off m - 8) / 2) ≤ h.pages * efiPageSize := by
      unfold blockEntries
      omega
    obtain ⟨hfit, hunfit⟩ := blockLoop_inside (m := m) hs hr ht.room hn
    exact ⟨fun he => by rw [hfit he], fun he => by rw [hunfit he]; rfl⟩
  · rw [if_neg hwrap, if_neg hwrap]
    have hroom : entryRoom h off < (blockSize h off m - 8) / 2 := by
      unfold entryRoom
      omega
    obtain ⟨hfit, hunfit⟩ := blockLoop_outside (m := m) hs hr ht.room hroom
    exact ⟨fun he => by rw [hfit he]; rfl, fun he => by rw [hunfit he]; rfl⟩

theorem Reached.le (h' : Reached h delta m0 off m) : off ≤ h.relocSize := by
  cases h' with
  | first => exact Nat.zero_le _
  | next hr ht hwrap _ =>
    have hin := ht.inside
    rwa [add32, Nat.mod_eq_of_lt hwrap] at hin

/-- **Where all blocks fit the loop ends**, by induction on the fuel: every block takes off at least 8. -/
theorem relocBlocks_settled (hs : h.Sound) (hr : Relocates h delta)
    (hfit : ∀ off m, Reached h delta m0 off m → Taken h off m → BlockFits h delta off m)
    (hreach : Reached h delta m0 off m) (hfuel : h.relocSize < fuel + off) :
    Settled (relocBlocks h delta (h.pages * efiPageSize) fuel off m) := by
  induction fuel generalizing off m with
  | zero => exact absurd hreach.le (by omega)
  | succ fuel ih =>
    by_cases ht : Taken h off m
    · rw [(relocBlocks_taken hs hr ht hreach.le fuel).1 (hfit off m hreach ht)]
      cases hm : nextImage h delta off m with
      | none => trivial
      | some m' =>
        rw [nextImage, Option.ite_none_right_eq_some] at hm
        have h8 := ht.size
        exact ih (hreach.next ht hm.1 hm.2) (by omega)
    · rw [relocBlocks_succ hs hr hreach.le]
      split
      · split
        · trivial
        · exact absurd ⟨‹_›, by omega, by omega⟩ ht
      · trivial

/-- The loop comes to every block that is reached, if it does not go wrong before. -/
theorem relocBlocks_reached (hs : h.Sound) (hr : Relocates h delta)
    (hrun : Settled (relocBlocks h delta (h.pages * efiPageSize) (h.relocSize + 1) 0 m0))
    (hreach : Reached h delta m0 off m) :
    ∃ fuel, h.relocSize < fuel + off ∧ Settled (relocBlocks h delta (h.pages * efiPageSize) fuel off m) := by
  induction hreach with
  | first => exact ⟨h.relocSize + 1, by omega, hrun⟩
  | @next off m m' hreach ht hwrap hm ih =>
    obtain ⟨fuel, hfuel, hset⟩ := ih
    have hle := hreach.le
    have h8 := ht.size
    obtain ⟨fuel, rfl⟩ : ∃ k, fuel = k + 1 := ⟨fuel - 1, by omega⟩
    obtain ⟨hfit, hunfit⟩ := relocBlocks_taken hs hr ht hle fuel
    by_cases he : BlockFits h delta off m
    · rw [hfit he, nextImage, if_pos hwrap, hm] at hset
      exact ⟨fuel, by omega, hset⟩
    · rw [hunfit he] at hset
      exact hset.elim

/-- **The relocations end and stay inside the image just if all blocks that are reached fit.** -/
theorem applyRelocs_settled_iff (hs : h.Sound) :
    Settled (applyRelocs h delta (h.pages * efiPageSize) m0) ↔ RelocsFit h delta m0 := by
  unfold applyRelocs
  by_cases hr : Relocates h delta
  · rw [if_neg hr.moved, if_neg (Nat.not_le_of_lt hr.given), if_neg (not_or.2 ⟨hr.rva, hr.size⟩),
      if_neg (Nat.not_lt_of_le hr.inside)]
    refine ⟨fun hrun _ off m hreach ht => ?_, fun hfit => relocBlocks_settled hs hr (hfit hr) .first (by omega)⟩
    obtain ⟨fuel, hfuel, hset⟩ := relocBlocks_reached hs hr hrun hreach
    have hle := hreach.le
    obtain ⟨fuel, rfl⟩ : ∃ k, fuel = k + 1 := ⟨fuel - 1, by omega⟩
    by_contra he
    rw [(relocBlocks_taken hs hr ht hle fuel).2 he] at hset
    exact hset
  · refine iff_of_true ?_ fun hr' => absurd hr' hr
    split
    · trivial
    split
    · trivial
    split
    · trivial
    split
    · trivial
    · exact absurd ⟨‹_›, by omega, by omega, by omega, by omega⟩ hr

/-! ## The image -/

/-- What the bytes of the file must meet: the section headers are in the file, a section without a virtual size
has room in the image, and no relocation wraps. -/
structure FileFits (f : Buffer) (h : PeHeaders) (img : Nat) : Prop where
  sections : SectionsFit f h
  relocs : ∀ m ∈ sectionImage f h, RelocsFit h (sub64 img h.imageBase) m

theorem fillImage_settled_iff (hs : h.Sound) (img : Nat) : Settled (fillImage f h img) ↔ FileFits f h img := by
  obtain ⟨hfit, hunfit⟩ := @loadSections_checks f h
  unfold fillImage
  dsimp only
  by_cases he : SectionsFit f h
  · rw [hfit he]
    cases hm : sectionImage f h with
    | none => exact iff_of_true trivial ⟨he, fun m hm' => by rw [hm] at hm'; cases hm'⟩
    | some m =>
      refine (applyRelocs_settled_iff hs).trans ⟨fun hr => ⟨he, fun m' hm' => ?_⟩, fun hr => hr.relocs m hm⟩
      rw [hm] at hm'
      cases hm'
      exact hr
  · rw [hunfit he]
    exact iff_of_false id fun hf => he hf.sections

/-! ## The pages of the image -/

variable {st : Mem}

/-- The preferred base and the size of the image do not wrap. -/
def BaseFits (h : PeHeaders) : Prop := h.Preferred → h.imageBase + h.pages * efiPageSize < 2 ^ 64

theorem fwAllocPagesAt_cases (st : Mem) (addr pages : Nat) (type : MemoryType) :
    fwAllocPagesAt st addr pages type = (st, 0) ∨
      fwAllocPagesAt st addr pages type = (regionMark st addr pages type, addr) := by
  unfold fwAllocPagesAt
  split
  · exact .inl rfl
  split
  · exact .inr rfl
  · exact .inl rfl

theorem PeHeaders.Sound.pages_lt (hs : h.Sound) : h.pages * efiPageSize < 2 ^ 64 :=
  Nat.lt_of_le_of_lt hs.pages_le (by decide)

/-- The pages that the image gets were conventional. -/
theorem allocImage_marked (hs : h.Sound) (hok : MemOk st) (hb : BaseFits h) :
    Marked st h.pages efiLoaderCode (allocImage st h) := by
  have hany : Marked st h.pages efiLoaderCode (fwAllocPages st h.pages efiLoaderCode) :=
    allocFrom_marked hok (by decide) hok.aligned hs.pages_lt
  unfold allocImage
  by_cases hp : h.Preferred
  · simp only [if_pos hp]
    have hat : Marked st h.pages efiLoaderCode (fwAllocPagesAt st h.imageBase h.pages efiLoaderCode) :=
      fwAllocPagesAt_marked hok hs.pages_lt fun _ _ => hb hp
    obtain he | he := fwAllocPagesAt_cases st h.imageBase h.pages efiLoaderCode
    · rw [he]
      exact hany
    · rw [he] at hat ⊢
      rw [if_neg hp.1]
      exact hat
  · simp only [if_neg hp]
    exact hany

/-- What is found from the bottom up is not below the bound. -/
theorem bestFit_ge {lo hi need : Nat} {best : Option Nat} {r : Region} (hbest : ∀ addr ∈ best, lo ≤ addr) :
    ∀ addr ∈ bestFit lo hi need false best r, lo ≤ addr := by
  unfold bestFit
  split
  · exact hbest
  simp only [Bool.false_eq_true, if_false]
  have hcand : lo ≤ if r.start < lo then lo else r.start := by split <;> omega
  generalize (if r.start < lo then lo else r.start) = cand at hcand ⊢
  generalize (if hi < r.stop then hi else r.stop) = stop
  split
  · exact hbest
  intro addr haddr
  cases best with
  | none => exact Option.some.inj haddr ▸ hcand
  | some b =>
    dsimp only at haddr
    by_cases hbetter : cand < b
    · rw [if_pos hbetter] at haddr
      exact Option.some.inj haddr ▸ hcand
    · rw [if_neg hbetter] at haddr
      exact hbest addr haddr

theorem foldl_bestFit_ge {lo hi need : Nat} : ∀ (m : List Region) (best : Option Nat), (∀ addr ∈ best, lo ≤ addr) →
    ∀ addr ∈ m.foldl (bestFit lo hi need false) best, lo ≤ addr
  | [], _, hbest => hbest
  | _ :: m, _, hbest => foldl_bestFit_ge m _ (bestFit_ge hbest)

theorem fwAllocPages_cases (st : Mem) (pages : Nat) (type : MemoryType) :
    fwAllocPages st pages type = (st, 0) ∨ (fwAllocPages st pages type).2 ≠ 0 := by
  unfold fwAllocPages allocFrom
  split
  · exact .inl rfl
  split
  · exact .inl rfl
  · rename_i addr hbest
    have hge := foldl_bestFit_ge st.map none (fun _ hn => absurd hn (Option.not_mem_none _)) addr hbest
    exact .inr (Nat.ne_of_gt (Nat.lt_of_lt_of_le (by decide) hge))

/-- `NULL` is returned only where nothing has been allocated. -/
theorem allocImage_cases (st : Mem) (h : PeHeaders) : allocImage st h = (st, 0) ∨ (allocImage st h).2 ≠ 0 := by
  have hany := fwAllocPages_cases st h.pages efiLoaderCode
  unfold allocImage
  by_cases hp : h.Preferred
  · simp only [if_pos hp]
    obtain he | he := fwAllocPagesAt_cases st h.imageBase h.pages efiLoaderCode
    · rw [he]
      exact hany
    · rw [he, if_neg hp.1]
      exact .inr hp.1
  · simp only [if_neg hp]
    exact hany

/-- A base that wraps is granted. -/
theorem allocImage_wrapped (st : Mem) (hs : h.Sound) (hb : ¬BaseFits h) :
    allocImage st h = (regionMark st h.imageBase h.pages efiLoaderCode, h.imageBase) ∧ h.imageBase ≠ 0 ∧
      2 ^ 64 ≤ h.imageBase + h.pages * efiPageSize := by
  obtain ⟨hp, hwrap⟩ := Classical.not_imp.1 hb
  have hwrap := Nat.le_of_not_lt hwrap
  unfold allocImage
  simp only [if_pos hp]
  rw [fwAllocPagesAt_wrapped hs.base hp.2.1 hs.pages_lt hwrap, if_neg hp.1]
  exact ⟨rfl, hp.1, hwrap⟩

/-- The pages are conventional, and the map is as it was. -/
def GivenBack (m m' : List Region) (addr pages : Nat) : Prop :=
  (∀ x, addr ≤ x → x < addr + pages * efiPageSize → typeAt m' x = some efiConventionalMemory) ∧
    ∀ x, typeAt m' x = typeAt m x

/-- Pages that have been handed out and freed. -/
theorem MemOk.givenBack (hok : MemOk st) (hroom : st.map.length + 4 ≤ fwMaxRegions) {addr pages : Nat}
    {type : MemoryType} (hpages : pages ≠ 0) (hne : addr ≠ 0) (ha : addr % efiPageSize = 0)
    (hconv : ∀ x, addr ≤ x → x < addr + pages * efiPageSize → typeAt st.map x = some efiConventionalMemory) :
    GivenBack st.map (fwFreePages (regionMark st addr pages type) addr pages).map addr pages := by
  have hrange : pages ≠ 0 → addr % efiPageSize = 0 ∧ addr + pages * efiPageSize ≤ st.ramTop :=
    fun hp => ⟨ha, hok.inside hconv hp⟩
  obtain ⟨-, hlen, hmarks⟩ : Whole (regionMark st addr pages type).map st.ramTop ∧ _ ∧ _ :=
    regionMark_spec hok.whole hok.top_lt (by omega) hrange
  have hok' : MemOk (regionMark st addr pages type) := hok.mark (by omega) hrange
  have hfree : Marks _ _ addr _ efiConventionalMemory :=
    (regionMark_spec hok'.whole hok'.top_lt (by omega) hrange).2.2
  rw [fwFreePages, if_neg (not_or.2 ⟨hne, hpages⟩)]
  refine ⟨fun x hx hx' => (hfree x).trans (if_pos ⟨hx, hx'⟩), fun x => (hfree x).trans ?_⟩
  by_cases hx : addr ≤ x ∧ x < addr + pages * efiPageSize
  · exact (if_pos hx).trans (hconv x hx.1 hx.2).symm
  · exact (if_neg hx).trans ((hmarks x).trans (if_neg hx))

/-! ## The loader -/

/-- **What is promised of a load**: it ends, and touches nothing but the file and the pages of the image; these
were conventional and are its own now, or, if the file is refused, they are conventional again. -/
def Confined (st : Mem) (res : Except Stop Loaded) : Prop :=
  ∃ r, res = .ok r ∧
    match r.block with
    | none => r.mem = st
    | some (img, pages) =>
      if r.status = -1 then GivenBack st.map r.mem.map img pages
      else Carved st.map r.mem.map img pages efiLoaderCode

/-- The base, the sections and the relocations fit, once the headers are accepted and there are pages. -/
def LoadFits (st : Mem) (f : Buffer) : Prop :=
  ∀ h, readHeaders f = .ok h → (allocImage st h).2 ≠ 0 → BaseFits h ∧ FileFits f h (allocImage st h).2

/-- Pages that wrap are neither carved nor given back. -/
theorem MemOk.not_confined (hok : MemOk st) {addr pages : Nat} {m : Mem} (hpages : pages * efiPageSize ≠ 0)
    (hwrap : 2 ^ 64 ≤ addr + pages * efiPageSize) :
    ¬GivenBack st.map m.map addr pages ∧ ¬Carved st.map m.map addr pages efiLoaderCode := by
  have hout := hok.wrapped_outside hwrap
  constructor
  · rintro ⟨hconv, hsame⟩
    have hlast := hconv (addr + pages * efiPageSize - 1) (by omega) (by omega)
    rw [hsame, hout] at hlast
    cases hlast
  · intro hcarved
    have hlast := ((hcarved (addr + pages * efiPageSize - 1)).1 (by omega)).1
    rw [hout] at hlast
    cases hlast

theorem loadImage_confined_iff (hs : h.Sound) (hok : MemOk st) (hroom : st.map.length + 4 ≤ fwMaxRegions) (out : PeImage) :
    Confined st (loadImage st f h out) ↔ ((allocImage st h).2 ≠ 0 → BaseFits h ∧ FileFits f h (allocImage st h).2) := by
  unfold loadImage
  obtain hnull | hne := allocImage_cases st h
  · rw [hnull]
    exact iff_of_true ⟨_, rfl, rfl⟩ fun hne => absurd rfl hne
  by_cases hb : BaseFits h
  · have hfill := fillImage_settled_iff (f := f) hs (allocImage st h).2
    obtain hnull | ⟨addr, he, ha, hconv⟩ := allocImage_marked hs hok hb
    · rw [hnull] at hne
      exact absurd rfl hne
    rw [he] at hfill hne ⊢
    dsimp only at hfill hne ⊢
    rw [if_neg hne]
    refine Iff.trans ?_ (hfill.trans ⟨fun hf _ => ⟨hb, hf⟩, fun hf => (hf hne).2⟩)
    cases hr : fillImage f h addr with
    | ok m => exact iff_of_true ⟨_, rfl, (hok.carved efiLoaderCode (by omega) ha hconv).2⟩ trivial
    | error e =>
      cases e with
      | refused => exact iff_of_true ⟨_, rfl, hok.givenBack hroom hs.pages_ne_zero hne ha hconv⟩ trivial
      | wild | hung => exact iff_of_false (fun ⟨_, hres, _⟩ => nomatch hres) id
  · obtain ⟨he, hne, hwrap⟩ := allocImage_wrapped st hs hb
    have hpages : h.pages * efiPageSize ≠ 0 := Nat.mul_ne_zero hs.pages_ne_zero (by decide)
    rw [he]
    dsimp only
    rw [if_neg hne]
    refine iff_of_false ?_ fun hf => hb (hf hne).1
    cases hr : fillImage f h h.imageBase with
    | ok m =>
      rintro ⟨r, hres, hconf⟩
      cases hres
      exact (hok.not_confined hpages hwrap).2 hconf
    | error e =>
      cases e with
      | refused =>
        rintro ⟨r, hres, hconf⟩
        cases hres
        exact (hok.not_confined hpages hwrap).1 hconf
      | wild | hung => exact fun ⟨_, hres, _⟩ => nomatch hres

/-- **The loader keeps to its buffers and gives back what it took, just if the base, the sections and the
relocations of the file fit.** -/
theorem pe_confined_iff (hok : MemOk st) (hroom : st.map.length + 4 ≤ fwMaxRegions) (file : Option Buffer)
    (out : Option PeImage) :
    Confined st (fwPeLoad st file out) ↔ ∀ f ∈ file, out ≠ none → LoadFits st f := by
  unfold fwPeLoad
  cases file with
  | none => exact iff_of_true ⟨_, rfl, rfl⟩ fun f hf => nomatch hf
  | some f =>
    cases out with
    | none => exact iff_of_true ⟨_, rfl, rfl⟩ fun _ _ hne => absurd rfl hne
    | some out =>
      have hall : (∀ g ∈ some f, some out ≠ none → LoadFits st g) ↔ LoadFits st f :=
        ⟨fun hf => hf f rfl (Option.some_ne_none _), fun hf g hg _ => Option.some.inj hg ▸ hf⟩
      rw [hall]
      dsimp only
      unfold LoadFits
      obtain hr | ⟨h, hr, hs⟩ := readHeaders_cases f
      · rw [hr]
        exact iff_of_true ⟨_, rfl, rfl⟩ fun h hr' => nomatch hr'
      · rw [hr]
        refine (loadImage_confined_iff hs hok hroom out).trans ⟨fun hf g hg => ?_, fun hf => hf h rfl⟩
        cases hg
        exact hf

/-- A file of the size, with these fields: the offset, the width and the value of each. -/
def fileOf (size : Nat) (fields : List (Nat × Nat × Nat)) : Buffer :=
  ⟨size, fields.foldl (fun m (a, n, v) => Bytes.put m a n v) fun _ => 0⟩

/-- An image of one page, with one section: 16 bytes of the file at the address, and no virtual size. -/
def oneSection (addr : Nat) : Buffer :=
  fileOf 400 [(0, 2, mzMagic), (0x3C, 4, 0x40), (0x40, 4, peMagic), (0x44, 2, machAmd64), (0x46, 2, 1),
    (0x54, 2, optSize), (0x58 + 56, 4, 4096), (0x58 + 68, 2, subsysEfiApp), (0x148 + 12, 4, addr), (0x148 + 16, 4, 16)]

/-- With the section in the page the loader keeps to its buffers; it refuses the file, which cannot be moved. -/
theorem pe_confined_one_section : Confined (fwMemInit fun _ => 0)
    (fwPeLoad (fwMemInit fun _ => 0) (some (oneSection 0x100)) (some ⟨0, 0, 0, 0⟩)) := by
  refine (pe_confined_iff (fwMemInit_ok _) (by decide) _ _).2 fun f hf _ h hh _ => ?_
  cases hf
  have hread : readHeaders (oneSection 0x100) = .ok ⟨0x58, 1, 240, 0, 0, 4096, 0, 10, 0, 0, 0⟩ := by
    decide
  obtain rfl : PeHeaders.mk 0x58 1 240 0 0 4096 0 10 0 0 0 = h := Except.ok.inj (hread.symm.trans hh)
  refine ⟨fun hp => absurd rfl hp.1, ⟨⟨?_, fun _ _ => trivial⟩, fun _ _ hr => absurd hr.given (by decide)⟩⟩
  decide

/-- **Where the address is the end of the page, the section is written behind the image.** -/
theorem pe_writes_behind : ¬∀ (cmos : BitVec 8 → BitVec 8) (file : Option Buffer) (out : Option PeImage),
    Confined (fwMemInit cmos) (fwPeLoad (fwMemInit cmos) file out) := fun h => by
  obtain ⟨r, hr, -⟩ := h (fun _ => 0) (some (oneSection 4096)) (some ⟨0, 0, 0, 0⟩)
  have hwild : (fwPeLoad (fwMemInit fun _ => 0) (some (oneSection 4096)) (some ⟨0, 0, 0, 0⟩)).toBool = false := by
    decide
  rw [hr] at hwild
  cases hwild

end WuBuOS.Firmware
