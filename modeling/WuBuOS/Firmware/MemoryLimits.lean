import WuBuOS.Firmware.MemoryCalls
import WuBuOS.Firmware.MemoryFull

/-!
# The allocators at their limits

What an allocator hands out is the caller's, and nothing else in the map changes (`Owned`); if it hands out nothing,
the map is as before.  There are two limits.  `pages * EFI_PAGE_SIZE` and `bytes + sizeof(pool_hdr)` wrap in 64 bits,
and then a small range is taken for a large one.  A full table has no room for the regions that are cut off at the
ends of the range.

* `marks_iff`, which is about the map, is put in terms of what the caller owns, for each of the allocators.
* The state is sound at the start (`fwMemInit_sound`), and a call within its limits keeps it so (`Sound.next`).
* `limits_iff` is about all runs: each call does what it says exactly if it stays in its limits.
* `wrapped_pages_granted`: 2^52 pages are handed out as none.
-/

namespace WuBuOS.Firmware

open Tiling

variable {r : Region}

/-! ## The calls -/

/-- A call of the memory manager; with `fw_pool_free` comes what the memory in front of the block holds. -/
inductive MemCall where
  | allocPages (pages : BitVec 64) (type : MemoryType)
  | allocPagesAt (addr pages : BitVec 64) (type : MemoryType)
  | freePages (p pages : BitVec 64)
  | poolAlloc (bytes : BitVec 64) (type : MemoryType)
  | poolFree (p : BitVec 64) (h : PoolHdr)

/-- The state after the call, and the address that it returns. -/
def MemCall.exec (st : Mem) : MemCall → Mem × Nat
  | .allocPages pages type => fwAllocPages st pages.toNat type
  | .allocPagesAt addr pages type => fwAllocPagesAt st addr.toNat pages.toNat type
  | .freePages p pages => (fwFreePages st p.toNat pages.toNat, 0)
  | .poolAlloc bytes type => fwPoolAlloc st bytes.toNat type
  | .poolFree p h => (fwPoolFree st p.toNat h, 0)

def MemCall.next (st : Mem) (call : MemCall) : Mem := (call.exec st).1

/-- The range was conventional, and is the caller's; all else is as it was. -/
def Owned (m m' : List Region) (addr size : Nat) (type : MemoryType) : Prop :=
  ∀ x, (addr ≤ x ∧ x < addr + size →
      typeAt m x = some efiConventionalMemory ∧ typeAt m' x = some type ∧ type ≠ efiConventionalMemory) ∧
    (¬(addr ≤ x ∧ x < addr + size) → typeAt m' x = typeAt m x)

/-- The pages of the range are conventional again; all else is as it was. -/
def Released (m m' : List Region) (p pages : Nat) : Prop :=
  if p = 0 then m' = m else Marks m m' p (p + pages * efiPageSize) efiConventionalMemory

/-- An allocation of pages: the caller owns them, or the map is as before. -/
def PagesGranted (st : Mem) (res : Mem × Nat) (pages : Nat) (type : MemoryType) : Prop :=
  if res.2 = 0 then res.1.map = st.map else Owned st.map res.1.map res.2 (pages * efiPageSize) type

/-- An allocation of a block, which lies in a range of its own. -/
def BlockGranted (st : Mem) (res : Mem × Nat) (bytes : Nat) (type : MemoryType) : Prop :=
  if res.2 = 0 then res.1.map = st.map
  else ∃ p size, p ≤ res.2 ∧ res.2 + bytes ≤ p + size ∧ Owned st.map res.1.map p size type

/-- The call does what it says. -/
def Exact (st : Mem) : MemCall → Prop
  | .allocPages pages type => PagesGranted st (fwAllocPages st pages.toNat type) pages.toNat type
  | .allocPagesAt addr pages type => PagesGranted st (fwAllocPagesAt st addr.toNat pages.toNat type) pages.toNat type
  | .freePages p pages => Released st.map (fwFreePages st p.toNat pages.toNat).map p.toNat pages.toNat
  | .poolAlloc bytes type => BlockGranted st (fwPoolAlloc st bytes.toNat type) bytes.toNat type
  | .poolFree p h =>
    if p = 0 ∨ h.magic ≠ poolMagic then fwPoolFree st p.toNat h = st
    else Released st.map (fwPoolFree st p.toNat h).map (sub64 p.toNat poolHdrSize) h.pages

/-- A range of pages in the map. -/
def InMap (st : Mem) (p pages : Nat) : Prop := p % efiPageSize = 0 ∧ p + pages * efiPageSize ≤ st.ramTop

/-- What is freed is a range of pages in the map. -/
def Proper (st : Mem) : MemCall → Prop
  | .freePages p pages => InMap st p.toNat pages.toNat
  | .poolFree p h => p = 0 ∨ h.magic ≠ poolMagic ∨ InMap st (sub64 p.toNat poolHdrSize) h.pages
  | _ => True

/-! ## The limits -/

/-- Where the part of a region above `FW_HEAP_BASE` starts. -/
def heapStart (r : Region) : Nat := max r.start fwHeapBase

/-- The region has room for so many bytes between two addresses. -/
def FitsIn (lo hi need : Nat) (r : Region) : Prop :=
  r.type = efiConventionalMemory ∧ max r.start lo < min r.limit hi ∧ need ≤ min r.limit hi - max r.start lo

instance (lo hi need : Nat) (r : Region) : Decidable (FitsIn lo hi need r) :=
  inferInstanceAs (Decidable (_ ∧ _ ∧ _))

/-- The first region with room for so many bytes in the heap. -/
def firstFit (st : Mem) (need : Nat) : Option Region := st.map.find? fun r => FitsIn fwHeapBase st.ramTop need r

instance (m : List Region) (start stop : Nat) : Decidable (Room m start stop) := inferInstanceAs (Decidable (_ ≤ _))

/-- Where the pages fit as 64 bits count them, they fit, and the table has room for what is cut off. -/
def PagesFit (st : Mem) (pages : Nat) (type : MemoryType) : Prop :=
  ∀ r ∈ firstFit st (mul64 pages efiPageSize), pages < 2 ^ 52 ∧ type ≠ efiConventionalMemory ∧
    Room st.map (heapStart r) (heapStart r + pages * efiPageSize)

instance (st : Mem) (pages : Nat) (type : MemoryType) : Decidable (PagesFit st pages type) :=
  inferInstanceAs (Decidable (∀ r ∈ firstFit st (mul64 pages efiPageSize), _ ∧ _ ∧ _))

/-- The call stays in its limits. -/
def WithinLimits (st : Mem) : MemCall → Prop
  | .allocPages pages type => pages = 0 ∨ PagesFit st pages.toNat type
  | .allocPagesAt addr pages type =>
    addr = 0 ∨ addr.toNat % efiPageSize ≠ 0 ∨ pages = 0 ∨
      (∃ x, addr.toNat ≤ x ∧ x < (addr.toNat + pages.toNat * efiPageSize) % 2 ^ 64 ∧
        typeAt st.map x ≠ some efiConventionalMemory) ∨
      addr.toNat + pages.toNat * efiPageSize < 2 ^ 64 ∧ type ≠ efiConventionalMemory ∧
        Room st.map addr.toNat (addr.toNat + pages.toNat * efiPageSize)
  | .freePages p pages => p = 0 ∨ pages = 0 ∨ Room st.map p.toNat (p.toNat + pages.toNat * efiPageSize)
  | .poolAlloc bytes type =>
    bytes = 0 ∨ poolPages bytes.toNat = 0 ∨ firstFit st (mul64 (poolPages bytes.toNat) efiPageSize) = none ∨
      bytes.toNat < 2 ^ 64 - 31 ∧ PagesFit st (poolPages bytes.toNat) type
  | .poolFree p h =>
    p = 0 ∨ h.magic ≠ poolMagic ∨ sub64 p.toNat poolHdrSize = 0 ∨ h.pages = 0 ∨
      Room st.map (sub64 p.toNat poolHdrSize) (sub64 p.toNat poolHdrSize + h.pages * efiPageSize)

/-! ## Marking a range -/

/-- The states that are reached.  The first page is never conventional. -/
structure Sound (st : Mem) : Prop where
  ok : MemOk st
  length : st.map.length ≤ fwMaxRegions
  null : typeAt st.map 0 ≠ some efiConventionalMemory

variable {st : Mem} {start pages addr size x : Nat} {type : MemoryType} {m m' : List Region}

/-- Joining finds nothing to join. -/
theorem coalesceFrom_of_merged {rest : List Region} (h : Merged (r :: rest)) : coalesceFrom r rest = r :: rest := by
  fun_induction coalesceFrom r rest with
  | case1 => rfl
  | case2 r s rest hjoin ih => exact absurd hjoin.1 (List.isChain_cons_cons.1 h).1
  | case3 r s rest hne ih => rw [ih (List.isChain_cons_cons.1 h).2]

theorem regionCoalesce_of_merged (h : Merged m) : regionCoalesce m = m := by
  cases m with
  | nil => rfl
  | cons r rest => exact coalesceFrom_of_merged h

/-- No range ends at the first address. -/
theorem markLoop_zero (start : Nat) (type : MemoryType) : ∀ (fuel : Nat) (m : List Region) (i : Nat),
    markLoop start 0 type fuel m i = m
  | 0, _, _ => rfl
  | fuel + 1, m, i => by
    rw [markLoop]
    split
    · have hskip : markEntry start 0 type m i = (m, i + 1) := by simp [markEntry]
      rw [hskip]
      exact markLoop_zero start type fuel m (i + 1)
    · rfl

/-- **Nothing is marked** of no pages, and of pages that end at the first address. -/
theorem regionMark_none (h : Merged st.map) (type : MemoryType)
    (hnone : pages = 0 ∨ add64 start (mul64 pages efiPageSize) = 0) : (regionMark st start pages type).map = st.map := by
  have hmap : (regionMark st start pages type).map = regionCoalesce (if pages = 0 then st.map else
      markLoop start (add64 start (mul64 pages efiPageSize)) type fwMaxRegions st.map 0) := rfl
  rw [hmap]
  split
  · exact regionCoalesce_of_merged h
  · rw [hnone.resolve_left ‹_›, markLoop_zero, regionCoalesce_of_merged h]

theorem Sound.top_lt (h : Sound st) : 2 * st.ramTop < 2 ^ 64 := by
  have := h.ok.upper
  omega

/-- **A range in the map is marked**, and the state is sound again. -/
theorem Sound.mark (h : Sound st) (type : MemoryType) (hin : InMap st start pages) (hpages : pages ≠ 0)
    (hstart : start ≠ 0) (hroom : Room st.map start (start + pages * efiPageSize)) :
    Sound (regionMark st start pages type) := by
  obtain ⟨hwhole, hcount, hmarks⟩ := regionMark_of_room type h.ok.whole h.ok.top_lt hpages hin.1 hin.2 hroom
  refine ⟨⟨hwhole, h.ok.lower, h.ok.upper, h.ok.aligned⟩, Nat.le_trans hcount hroom, ?_⟩
  rw [hmarks 0, if_neg (by omega)]
  exact h.null

theorem Sound.none_of_le (h : Sound st) (hx : st.ramTop ≤ x) : typeAt st.map x = none :=
  h.ok.whole.tiled.labelAt_eq_none.2 (by omega)

theorem Owned.none_iff (h : Owned m m' addr size type) (x : Nat) : typeAt m' x = none ↔ typeAt m x = none := by
  by_cases hx : addr ≤ x ∧ x < addr + size
  · obtain ⟨hm, hm', -⟩ := (h x).1 hx
    simp [hm, hm']
  · rw [(h x).2 hx]

/-- A range that is owned is in the memory. -/
theorem Owned.le (h : Sound st) (ho : Owned st.map m' addr size type) (hsize : 0 < size) : addr + size ≤ st.ramTop := by
  by_contra hout
  have hlast := ((ho (addr + size - 1)).1 (by omega)).1
  rw [h.none_of_le (by omega)] at hlast
  cases hlast

theorem Owned.type_ne (h : Owned m m' addr size type) (hsize : 0 < size) : type ≠ efiConventionalMemory :=
  ((h addr).1 (by omega)).2.2

/-- **Whatever the range, its mark loses nothing only with the room for what is cut off.** -/
theorem Owned.room (h : Sound st) (hin : InMap st start pages) (hpages : pages ≠ 0)
    (ho : Owned st.map (regionMark st start pages type).map addr size type) :
    Room st.map start (start + pages * efiPageSize) := by
  by_contra hroom
  obtain ⟨x, hx, hlost⟩ := regionMark_lost type h.ok.whole h.top_lt h.length hpages hin.1 hin.2 hroom
  exact h.ok.whole.tiled.labelAt_eq_none.1 ((ho.none_iff x).1 hlost) ⟨Nat.zero_le x, hx⟩

/-- The whole range is conventional. -/
def Conventional (m : List Region) (addr stop : Nat) : Prop :=
  ∀ x, addr ≤ x → x < stop → typeAt m x = some efiConventionalMemory

theorem Sound.owned (h : Sound st) (hin : InMap st start pages) (hpages : pages ≠ 0)
    (hconv : Conventional st.map start (start + pages * efiPageSize)) (htype : type ≠ efiConventionalMemory)
    (hroom : Room st.map start (start + pages * efiPageSize)) :
    Owned st.map (regionMark st start pages type).map start (pages * efiPageSize) type := fun x => by
  have hmarks := (regionMark_of_room type h.ok.whole h.ok.top_lt hpages hin.1 hin.2 hroom).2.2 x
  refine ⟨fun hx => ⟨hconv x hx.1 hx.2, ?_, htype⟩, fun hx => ?_⟩
  · rw [hmarks, if_pos hx]
  · rw [hmarks, if_neg hx]

/-! ## The first fit -/

theorem bestFit_eq {lo hi need : Nat} (best : Option Nat) (hlim : r.limit < 2 ^ 64) :
    bestFit lo hi need false best r = if FitsIn lo hi need r then
      some (best.elim (max r.start lo) fun b => if max r.start lo < b then max r.start lo else b) else best := by
  have hrs : (if r.start < lo then lo else r.start) = max r.start lo := by
    split <;> omega
  have hre : (if hi < r.limit then hi else r.limit) = min r.limit hi := by
    split <;> omega
  simp only [bestFit, stop_eq hlim, hrs, hre, Bool.false_eq_true, if_false]
  by_cases htype : r.type = efiConventionalMemory
  · rw [if_neg (not_not.2 htype)]
    by_cases hlt : max r.start lo < min r.limit hi
    · rw [sub64_eq (Nat.le_of_lt hlt) (by omega)]
      by_cases hneed : need ≤ min r.limit hi - max r.start lo
      · rw [if_neg (by omega), if_pos (show FitsIn lo hi need r from ⟨htype, hlt, hneed⟩)]
        cases best with
        | none => rfl
        | some b =>
          exact (apply_ite some _ _ _).symm
      · rw [if_pos (.inr (Nat.lt_of_not_le hneed)), if_neg fun h => hneed h.2.2]
    · rw [if_pos (.inl (Nat.le_of_not_lt hlt)), if_neg fun h => hlt h.2.1]
  · rw [if_pos htype, if_neg fun h => htype h.1]

/-- Behind the first fit there is none better: the regions are in the order of their addresses. -/
theorem foldl_bestFit_some {lo hi need b top : Nat} (htop : top < 2 ^ 64) : ∀ {a : Nat} {l : List Region},
    Tiled a l top → b ≤ max a lo → l.foldl (bestFit lo hi need false) (some b) = some b
  | _, [], _, _ => rfl
  | a, r :: l, ⟨hlo, hlt, h⟩, hb => by
    have hstay : bestFit lo hi need false (some b) r = some b := by
      rw [bestFit_eq _ (Nat.lt_of_le_of_lt (Tiles.le h) htop), hlo]
      split
      · rw [Option.elim_some, if_neg (Nat.not_lt_of_le hb)]
      · rfl
    rw [List.foldl_cons, hstay]
    exact foldl_bestFit_some htop h (by omega)

theorem foldl_bestFit_none {lo hi need top : Nat} (htop : top < 2 ^ 64) : ∀ {a : Nat} {l : List Region},
    Tiled a l top → l.foldl (bestFit lo hi need false) none =
      (l.find? fun r => FitsIn lo hi need r).map fun r => max r.start lo
  | _, [], _ => rfl
  | a, r :: l, ⟨hlo, hlt, h⟩ => by
    rw [List.foldl_cons, bestFit_eq _ (Nat.lt_of_le_of_lt (Tiles.le h) htop)]
    by_cases hfit : FitsIn lo hi need r
    · rw [if_pos hfit, List.find?_cons, decide_eq_true hfit, Option.elim_none]
      exact foldl_bestFit_some htop h (by omega)
    · rw [if_neg hfit, List.find?_cons, decide_eq_false hfit]
      exact foldl_bestFit_none htop h

theorem fwAllocPages_eq (h : Sound st) (hpages : pages ≠ 0) : fwAllocPages st pages type =
    match firstFit st (mul64 pages efiPageSize) with
    | none => (st, 0)
    | some r => (regionMark st (heapStart r) pages type, heapStart r) := by
  have hfind : st.map.foldl (bestFit fwHeapBase st.ramTop (mul64 pages efiPageSize) false) none =
      (firstFit st (mul64 pages efiPageSize)).map heapStart := foldl_bestFit_none h.ok.top_lt h.ok.whole.tiled
  rw [fwAllocPages, allocFrom, if_neg hpages, hfind]
  cases firstFit st (mul64 pages efiPageSize) <;> rfl

/-- The first fit is in the map, and conventional. -/
theorem Sound.firstFit_spec (h : Sound st) {need : Nat} (hr : r ∈ firstFit st need) :
    heapStart r % efiPageSize = 0 ∧ heapStart r ≠ 0 ∧ heapStart r + need ≤ st.ramTop ∧
      Conventional st.map (heapStart r) (heapStart r + need) := by
  have hfit := List.find?_some (Option.mem_def.1 hr)
  obtain ⟨htype, (hlt : heapStart r < _), (hneed : _ ≤ _ - heapStart r)⟩ := of_decide_eq_true hfit
  have hmem := List.mem_of_find?_eq_some hr
  have hstart := Tiled.aligned h.ok.whole.tiled rfl r hmem
  have hle : r.start ≤ heapStart r := Nat.le_max_left ..
  have hheap : 0x00400000 ≤ heapStart r := Nat.le_max_right ..
  refine ⟨?_, by omega, by omega, fun x hx hx' => ?_⟩
  · unfold heapStart
    rcases Nat.le_total r.start fwHeapBase with h | h
    · rw [Nat.max_eq_right h]
      decide
    · rwa [Nat.max_eq_left h]
  · rw [← htype]
    exact h.ok.whole.tiled.labelAt_eq hmem (by omega) (by omega)

/-- Where the pages fit as 64 bits count them, and the size does not wrap. -/
theorem Sound.fits (h : Sound st) (hr : r ∈ firstFit st (mul64 pages efiPageSize))
    (hlt : pages < 2 ^ 52) : heapStart r ≠ 0 ∧ InMap st (heapStart r) pages ∧
      Conventional st.map (heapStart r) (heapStart r + pages * efiPageSize) := by
  obtain ⟨ha, hne, hle, hconv⟩ := h.firstFit_spec hr
  have hsize : pages * 4096 < 2 ^ 64 := by omega
  rw [mul64_eq hsize] at hle hconv
  exact ⟨hne, ⟨ha, hle⟩, hconv⟩

theorem PagesFit.owned (h : Sound st) (hp : PagesFit st pages type)
    (hr : r ∈ firstFit st (mul64 pages efiPageSize)) (hpages : pages ≠ 0) :
    Owned st.map (regionMark st (heapStart r) pages type).map (heapStart r) (pages * efiPageSize) type := by
  obtain ⟨hlt, htype, hroom⟩ := hp r hr
  obtain ⟨-, hin, hconv⟩ := h.fits hr hlt
  exact h.owned hin hpages hconv htype hroom

/-- **What a mark of the first fit owns tells that the call was in its limits.** -/
theorem Owned.pagesFit (h : Sound st) (hr : r ∈ firstFit st (mul64 pages efiPageSize))
    (hpages : pages ≠ 0) (hlt : pages < 2 ^ 52)
    (ho : Owned st.map (regionMark st (heapStart r) pages type).map addr size type) (hsize : 0 < size) :
    PagesFit st pages type := by
  intro r' hr'
  cases (Option.mem_def.1 hr).symm.trans (Option.mem_def.1 hr')
  exact ⟨hlt, ho.type_ne hsize, ho.room h (h.fits hr hlt).2.1 hpages⟩

theorem pagesGranted_null (st : Mem) (pages : Nat) (type : MemoryType) : PagesGranted st (st, 0) pages type := by
  simp [PagesGranted]

theorem blockGranted_null (st : Mem) (bytes : Nat) (type : MemoryType) : BlockGranted st (st, 0) bytes type := by
  simp [BlockGranted]

theorem toNat_ne {v : BitVec 64} (h : v ≠ 0) : v.toNat ≠ 0 := fun he => h (BitVec.eq_of_toNat_eq he)

theorem allocPages_iff (h : Sound st) (pages : BitVec 64) (type : MemoryType) :
    Exact st (.allocPages pages type) ↔ WithinLimits st (.allocPages pages type) := by
  show PagesGranted st (fwAllocPages st pages.toNat type) pages.toNat type ↔ pages = 0 ∨ PagesFit st pages.toNat type
  by_cases hzero : pages = 0
  · subst hzero
    exact iff_of_true (pagesGranted_null st _ type) (.inl rfl)
  have hpages := toNat_ne hzero
  rw [fwAllocPages_eq h hpages, or_iff_right hzero]
  cases hfit : firstFit st (mul64 pages.toNat efiPageSize) with
  | none => exact iff_of_true (pagesGranted_null st _ type) fun r hr => by simp [hfit] at hr
  | some r =>
    rw [PagesGranted, if_neg (h.firstFit_spec hfit).2.1]
    refine ⟨fun ho => ?_, fun hp => hp.owned h hfit hpages⟩
    have hpos : 0 < pages.toNat * 4096 := by omega
    have hle : heapStart r + pages.toNat * 4096 ≤ st.ramTop := ho.le h hpos
    have htop := h.top_lt
    exact ho.pagesFit h hfit hpages (by omega) hpos

/-! ## The pool -/

theorem poolPages_lt (bytes : Nat) : poolPages bytes < 2 ^ 52 := by
  unfold poolPages sub64
  simp only [efiPageSize]
  omega

/-- The block and its header are in the pages. -/
theorem le_poolPages {bytes : Nat} (hlt : bytes < 2 ^ 64 - 31) (hpages : poolPages bytes ≠ 0) :
    bytes + 32 ≤ poolPages bytes * efiPageSize := by
  unfold poolPages sub64 add64 at *
  simp only [poolHdrSize, efiPageSize] at *
  omega

theorem poolAlloc_iff (h : Sound st) (bytes : BitVec 64) (type : MemoryType) :
    Exact st (.poolAlloc bytes type) ↔ WithinLimits st (.poolAlloc bytes type) := by
  show BlockGranted st (fwPoolAlloc st bytes.toNat type) bytes.toNat type ↔ bytes = 0 ∨ poolPages bytes.toNat = 0 ∨
    firstFit st (mul64 (poolPages bytes.toNat) efiPageSize) = none ∨ _
  by_cases hzero : bytes = 0
  · subst hzero
    exact iff_of_true (blockGranted_null st _ type) (.inl rfl)
  have hbytes := toNat_ne hzero
  rw [fwPoolAlloc, if_neg hbytes, or_iff_right hzero]
  by_cases hpages : poolPages bytes.toNat = 0
  · rw [hpages]
    exact iff_of_true (blockGranted_null st _ type) (.inl rfl)
  rw [fwAllocPages_eq h hpages, or_iff_right hpages]
  cases hfit : firstFit st (mul64 (poolPages bytes.toNat) efiPageSize) with
  | none => exact iff_of_true (blockGranted_null st _ type) (.inl rfl)
  | some r =>
    obtain ⟨hne, hin, -⟩ := h.fits hfit (poolPages_lt _)
    have hle := hin.2
    have htop := h.top_lt
    have hblock : add64 (heapStart r) poolHdrSize = heapStart r + 32 := add64_eq (by
      show heapStart r + 32 < _
      omega)
    rw [poolBlock, if_neg hne, hblock, BlockGranted, if_neg (by simp), or_iff_right (by simp)]
    constructor
    · rintro ⟨p, size, hp, hsize, ho⟩
      dsimp only at hp hsize
      have hle := ho.le h (by omega)
      exact ⟨by omega, ho.pagesFit h hfit hpages (poolPages_lt _) (by omega)⟩
    · rintro ⟨hlt, hp⟩
      have hlen := le_poolPages hlt hpages
      exact ⟨heapStart r, _, Nat.le_add_right _ _, by dsimp only; omega, hp.owned h hfit hpages⟩

/-! ## A range at an address -/

theorem allConventional_iff (h : MemOk st) {cursor stop : Nat} :
    allConventional st.map cursor stop = true ↔ Conventional st.map cursor stop := by
  refine ⟨allConventional_typeAt h, fun hconv => ?_⟩
  fun_induction allConventional st.map cursor stop with
  | case1 cursor hlt hnone =>
    have hcursor := hconv cursor (Nat.le_refl _) hlt
    have houtside : typeAt st.map cursor = none := labelAt_eq_none.2 fun r hr hx => by
      have hfind := List.find?_eq_none.1 hnone r hr
      rw [stop_eq (h.regions r hr).2] at hfind
      simp [hx] at hfind
    rw [houtside] at hcursor
    cases hcursor
  | case2 cursor hlt r hr hother =>
    have hmem := List.mem_of_find?_eq_some hr
    have hfind := List.find?_some hr
    obtain ⟨hlo, hhi⟩ := of_decide_eq_true hfind
    rw [stop_eq (h.regions r hmem).2] at hhi
    have hcursor := hconv cursor (Nat.le_refl _) hlt
    rw [typeAt, h.whole.tiled.labelAt_eq hmem hlo hhi] at hcursor
    exact absurd (Option.some.inj hcursor) hother
  | case3 cursor hlt r hr htype hnext ih => exact ih fun x hx hx' => hconv x (by omega) hx'
  | case4 => rfl

/-- The check goes from the address to the end of the range, as 64 bits have it. -/
theorem fwAllocPagesAt_checked (h : MemOk st) (addr pages : Nat) (type : MemoryType) :
    ((addr % efiPageSize = 0 ∧ Conventional st.map addr ((addr + pages * efiPageSize) % 2 ^ 64)) ∧
      fwAllocPagesAt st addr pages type = (regionMark st addr pages type, addr)) ∨
    ¬(addr % efiPageSize = 0 ∧ Conventional st.map addr ((addr + pages * efiPageSize) % 2 ^ 64)) ∧
      fwAllocPagesAt st addr pages type = (st, 0) := by
  have hend : add64 addr (mul64 pages efiPageSize) = (addr + pages * efiPageSize) % 2 ^ 64 := Nat.add_mod_mod ..
  rw [← hend, ← allConventional_iff h, fwAllocPagesAt]
  by_cases ha : addr % efiPageSize = 0
  · by_cases hall : allConventional st.map addr (add64 addr (mul64 pages efiPageSize)) = true
    · exact .inl ⟨⟨ha, hall⟩, by rw [if_neg (not_not.2 ha), if_pos hall]⟩
    · exact .inr ⟨fun hc => hall hc.2, by rw [if_neg (not_not.2 ha), if_neg hall]⟩
  · exact .inr ⟨fun hc => ha hc.1, if_pos ha⟩

/-- No range at the first address is conventional. -/
theorem Sound.null_end (h : Sound st) {stop : Nat} (hconv : Conventional st.map 0 stop) : stop = 0 := by
  by_contra hne
  exact h.null (hconv 0 (Nat.le_refl 0) (Nat.pos_of_ne_zero hne))

theorem Sound.regionMark_null (h : Sound st) (type : MemoryType)
    (hconv : Conventional st.map 0 ((0 + pages * efiPageSize) % 2 ^ 64)) :
    (regionMark st 0 pages type).map = st.map :=
  regionMark_none h.ok.whole.merged type (.inr ((Nat.add_mod_mod ..).trans (h.null_end hconv)))

theorem allocPagesAt_iff (h : Sound st) (addr pages : BitVec 64) (type : MemoryType) :
    Exact st (.allocPagesAt addr pages type) ↔ WithinLimits st (.allocPagesAt addr pages type) := by
  show PagesGranted st (fwAllocPagesAt st addr.toNat pages.toNat type) pages.toNat type ↔
    addr = 0 ∨ _ ∨ pages = 0 ∨ _ ∨ _
  rcases fwAllocPagesAt_checked h.ok addr.toNat pages.toNat type with ⟨⟨ha, hconv⟩, hcall⟩ | ⟨hnot, hcall⟩ <;> rw [hcall]
  · by_cases haddr : addr = 0
    · subst haddr
      refine iff_of_true ?_ (.inl rfl)
      rw [PagesGranted, if_pos (by rfl)]
      exact h.regionMark_null type hconv
    rw [PagesGranted, if_neg (toNat_ne haddr)]
    by_cases hzero : pages = 0
    · subst hzero
      refine iff_of_true (fun x => ⟨fun hx => ?_, fun _ => ?_⟩) (.inr (.inr (.inl rfl)))
      · simp at hx
        omega
      · exact congrArg (typeAt · x) (regionMark_none h.ok.whole.merged type (.inl rfl))
    have hpages := toNat_ne hzero
    have hpos : 0 < pages.toNat * 4096 := by omega
    have htop := h.top_lt
    rw [or_iff_right haddr, or_iff_right (not_not.2 ha), or_iff_right hzero,
      or_iff_right fun hex => hex.elim fun x hx => hx.2.2 (hconv x hx.1 hx.2.1)]
    refine ⟨fun ho => ?_, fun hall => ?_⟩
    · have hle : addr.toNat + pages.toNat * efiPageSize ≤ st.ramTop := ho.le h hpos
      exact ⟨by omega, ho.type_ne hpos, ho.room h ⟨ha, hle⟩ hpages⟩
    · obtain ⟨hlt, htype, hroom⟩ := hall
      rw [Nat.mod_eq_of_lt hlt] at hconv
      exact h.owned ⟨ha, h.ok.inside hconv hpages⟩ hpages hconv htype hroom
  · refine iff_of_true (pagesGranted_null st _ type) (.inr ?_)
    by_cases ha : addr.toNat % efiPageSize = 0
    · refine .inr (.inr (.inl ?_))
      by_contra hall
      exact hnot ⟨ha, fun x hx hx' => by_contra fun hx'' => hall ⟨x, hx, hx', hx''⟩⟩
    · exact .inl ha

/-! ## What is freed -/

theorem released_iff (h : Sound st) {p : Nat} (hin : InMap st p pages) :
    Released st.map (fwFreePages st p pages).map p pages ↔
      p = 0 ∨ pages = 0 ∨ Room st.map p (p + pages * efiPageSize) := by
  unfold Released fwFreePages
  by_cases hp : p = 0
  · rw [if_pos hp, if_pos (.inl hp)]
    exact iff_of_true rfl (.inl hp)
  rw [if_neg hp]
  by_cases hpages : pages = 0
  · rw [if_pos (.inr hpages), hpages]
    refine iff_of_true (fun x => ?_) (.inr (.inl rfl))
    rw [if_neg (by omega)]
  · rw [if_neg (not_or.2 ⟨hp, hpages⟩), or_iff_right hp, or_iff_right hpages]
    exact marks_iff _ h.ok.whole h.top_lt h.length hpages hin.1 hin.2

theorem poolFree_eq {p : BitVec 64} {hdr : PoolHdr} (hours : ¬(p = 0 ∨ hdr.magic ≠ poolMagic)) :
    fwPoolFree st p.toNat hdr = fwFreePages st (sub64 p.toNat poolHdrSize) hdr.pages := by
  rw [not_or] at hours
  exact if_neg (not_or.2 ⟨toNat_ne hours.1, hours.2⟩)

theorem exact_iff (h : Sound st) {call : MemCall} (hp : Proper st call) : Exact st call ↔ WithinLimits st call := by
  cases call with
  | allocPages pages type => exact allocPages_iff h pages type
  | allocPagesAt addr pages type => exact allocPagesAt_iff h addr pages type
  | freePages p pages =>
    refine (released_iff h hp).trans (or_congr ?_ (or_congr ?_ Iff.rfl)) <;>
      exact ⟨fun he => BitVec.eq_of_toNat_eq he, fun he => congrArg _ he⟩
  | poolAlloc bytes type => exact poolAlloc_iff h bytes type
  | poolFree p hdr =>
    show (if p = 0 ∨ hdr.magic ≠ poolMagic then _ else _) ↔ p = 0 ∨ hdr.magic ≠ poolMagic ∨ _
    rw [← or_assoc]
    by_cases hours : p = 0 ∨ hdr.magic ≠ poolMagic
    · rw [if_pos hours, or_iff_left_of_imp fun _ => hours]
      refine iff_of_true (if_pos ?_) hours
      exact hours.imp_left (congrArg BitVec.toNat)
    · rw [if_neg hours, or_iff_right hours, poolFree_eq hours]
      refine released_iff h ?_
      rw [Proper, ← or_assoc] at hp
      exact hp.resolve_left hours

/-! ## Runs -/

/-- A call that leaves the map alone may count on the key. -/
theorem Sound.of_map {st' : Mem} (h : Sound st) (hmap : st'.map = st.map) (htop : st'.ramTop = st.ramTop) : Sound st' := by
  obtain ⟨⟨hwhole, hlo, hhi, ha⟩, hlen, hnull⟩ := h
  rw [← hmap] at hwhole hlen hnull
  rw [← htop] at hwhole hlo hhi ha
  exact ⟨⟨hwhole, hlo, hhi, ha⟩, hlen, hnull⟩

theorem Sound.allocPages (h : Sound st) (hp : pages = 0 ∨ PagesFit st pages type) :
    Sound (fwAllocPages st pages type).1 := by
  by_cases hpages : pages = 0
  · rw [hpages]
    exact h
  rw [fwAllocPages_eq h hpages]
  cases hfit : firstFit st (mul64 pages efiPageSize) with
  | none => exact h
  | some r =>
    obtain ⟨hlt, -, hroom⟩ := hp.resolve_left hpages r hfit
    obtain ⟨hne, hin, -⟩ := h.fits hfit hlt
    exact h.mark type hin hpages hne hroom

theorem Sound.allocPagesAt (h : Sound st) {addr pages : BitVec 64}
    (hw : WithinLimits st (.allocPagesAt addr pages type)) :
    Sound (fwAllocPagesAt st addr.toNat pages.toNat type).1 := by
  rcases fwAllocPagesAt_checked h.ok addr.toNat pages.toNat type with ⟨⟨ha, hconv⟩, hcall⟩ | ⟨-, hcall⟩ <;> rw [hcall]
  · by_cases haddr : addr = 0
    · subst haddr
      exact h.of_map (h.regionMark_null type hconv) rfl
    by_cases hzero : pages = 0
    · subst hzero
      exact h.of_map (regionMark_none h.ok.whole.merged type (.inl rfl)) rfl
    have hpages := toNat_ne hzero
    rw [WithinLimits, or_iff_right haddr, or_iff_right (not_not.2 ha), or_iff_right hzero,
      or_iff_right fun hex => hex.elim fun x hx => hx.2.2 (hconv x hx.1 hx.2.1)] at hw
    obtain ⟨hlt, -, hroom⟩ := hw
    rw [Nat.mod_eq_of_lt hlt] at hconv
    exact h.mark type ⟨ha, h.ok.inside hconv hpages⟩ hpages (toNat_ne haddr) hroom
  · exact h

theorem Sound.freePages (h : Sound st) {p : Nat} (hin : InMap st p pages)
    (hw : p = 0 ∨ pages = 0 ∨ Room st.map p (p + pages * efiPageSize)) : Sound (fwFreePages st p pages) := by
  unfold fwFreePages
  split
  · exact h
  · rename_i hne
    obtain ⟨hp, hpages⟩ := not_or.1 hne
    exact h.mark _ hin hpages hp ((hw.resolve_left hp).resolve_left hpages)

theorem poolBlock_fst (res : Mem × Nat) : (poolBlock res).1 = res.1 := rfl

theorem fwPoolAlloc_fst (st : Mem) (bytes : Nat) (type : MemoryType) : (fwPoolAlloc st bytes type).1 =
    if bytes = 0 then st else (fwAllocPages st (poolPages bytes) type).1 := by
  unfold fwPoolAlloc
  split
  · rfl
  · exact poolBlock_fst _

/-- **A call within its limits keeps the state sound.** -/
theorem Sound.next (h : Sound st) {call : MemCall} (hp : Proper st call) (hw : WithinLimits st call) :
    Sound (call.next st) := by
  cases call with
  | allocPages pages type => exact h.allocPages (hw.imp_left (congrArg BitVec.toNat))
  | allocPagesAt addr pages type => exact h.allocPagesAt hw
  | freePages p pages =>
    exact h.freePages hp (hw.imp (congrArg BitVec.toNat) (Or.imp_left (congrArg BitVec.toNat)))
  | poolAlloc bytes type =>
    show Sound (fwPoolAlloc st bytes.toNat type).1
    rw [fwPoolAlloc_fst]
    split
    · exact h
    · rename_i hbytes
      refine h.allocPages ?_
      rcases hw with rfl | hpages | hnone | ⟨-, hfit⟩
      · exact absurd rfl hbytes
      · exact .inl hpages
      · exact .inr fun r hr => by simp [hnone] at hr
      · exact .inr hfit
  | poolFree p hdr =>
    by_cases hours : p = 0 ∨ hdr.magic ≠ poolMagic
    · have hsame : fwPoolFree st p.toNat hdr = st := if_pos (hours.imp_left (congrArg BitVec.toNat))
      show Sound (fwPoolFree st p.toNat hdr)
      rwa [hsame]
    · show Sound (fwPoolFree st p.toNat hdr)
      rw [Proper, ← or_assoc] at hp
      rw [WithinLimits, ← or_assoc] at hw
      rw [poolFree_eq hours]
      exact h.freePages (hp.resolve_left hours) (hw.resolve_left hours)

/-- A range of the firmware's own, behind the first page. -/
theorem Sound.carve (h : Sound st) (n start pages : Nat) (type : MemoryType) (hn : st.map.length ≤ n)
    (hroom : n + 2 ≤ fwMaxRegions) (hstart : start % efiPageSize = 0) (hstop : start + pages * efiPageSize ≤ 0x2000000)
    (hfirst : 0 < start) :
    Sound (regionMark st start pages type) ∧ (regionMark st start pages type).map.length ≤ n + 2 := by
  obtain ⟨hok, hlen⟩ := h.ok.carve n start pages type hn hroom hstart hstop
  have hmarks : Marks st.map (regionMark st start pages type).map _ _ type :=
    (regionMark_spec h.ok.whole h.ok.top_lt (by omega) fun _ => ⟨hstart, Nat.le_trans hstop h.ok.lower⟩).2.2
  refine ⟨⟨hok, Nat.le_trans hlen hroom, ?_⟩, hlen⟩
  rw [hmarks 0, if_neg (by omega)]
  exact h.null

theorem fwMemInit_sound (cmos : BitVec 8 → BitVec 8) : Sound (fwMemInit cmos) := by
  have hbase := baseMap_ok cmos
  obtain ⟨hok, hn⟩ := hbase.carve 3 0x00000000 0x10 efiRuntimeServicesData (Nat.le_refl 3) (by decide) (by decide)
    (by decide)
  have hroom : 3 + 2 ≤ fwMaxRegions := by decide
  have hmarks : Marks _ (regionMark _ 0x00000000 0x10 efiRuntimeServicesData).map _ _ _ :=
    (regionMark_spec hbase.whole hbase.top_lt hroom fun _ => ⟨by decide, Nat.le_trans (by decide) hbase.lower⟩).2.2
  have h : Sound (regionMark ⟨baseMap (detectRamTop cmos), 1, detectRamTop cmos⟩ 0x00000000 0x10 efiRuntimeServicesData) := by
    refine ⟨hok, Nat.le_trans hn (by decide), ?_⟩
    rw [hmarks 0, if_pos (by decide)]
    decide
  obtain ⟨h, hn⟩ := h.carve 5 fwPtBase 6 efiRuntimeServicesData hn (by decide) (by decide) (by decide) (by decide)
  obtain ⟨h, hn⟩ := h.carve 7 0x00090000 0x10 efiBootServicesData hn (by decide) (by decide) (by decide) (by decide)
  exact (h.carve 9 fwLoadBase ((0x00400000 - fwLoadBase) / efiPageSize) efiRuntimeServicesCode hn (by decide)
    (by decide) (by decide) (by decide)).1

/-- **In every run, each call does what it says exactly if each stays in its limits.** -/
theorem limits_iff (cmos : BitVec 8 → BitVec 8) (calls : List MemCall)
    (hp : Runs.Each MemCall.next Proper (fwMemInit cmos) calls) :
    Runs.Each MemCall.next Exact (fwMemInit cmos) calls ↔
      Runs.Each MemCall.next WithinLimits (fwMemInit cmos) calls := by
  have hiff := Runs.each_iff (P := fun st call => Proper st call ∧ WithinLimits st call)
    (Q := fun st call => Proper st call ∧ Exact st call) Sound (fun st call h hc => h.next hc.1 hc.2)
    (fun st call h => and_congr_right fun hp => (exact_iff h hp).symm) (fwMemInit cmos) calls (fwMemInit_sound cmos)
  rw [Runs.each_and, Runs.each_and] at hiff
  exact ⟨fun he => (hiff.2 ⟨hp, he⟩).2, fun hw => (hiff.1 ⟨hp, hw⟩).2⟩

/-- Memory of 128 MB: pages and a block are handed out, and the pages are freed. -/
theorem limits_iff_sample : Runs.Each MemCall.next Exact (fwMemInit fun _ => 0)
    [.allocPages 2 efiBootServicesData, .poolAlloc 100 efiBootServicesData, .freePages 0x400000 2] := by
  refine (limits_iff (fun _ => 0) [.allocPages 2 efiBootServicesData, .poolAlloc 100 efiBootServicesData,
    .freePages 0x400000 2] ⟨trivial, trivial, ⟨?_, ?_⟩, trivial⟩).2
    ⟨.inr ?_, .inr (.inr (.inr ⟨?_, ?_⟩)), .inr (.inr ?_), trivial⟩ <;> decide

/-- **2^52 pages are none in 64 bits**, and are handed out. -/
theorem wrapped_pages_granted : ¬∀ (cmos : BitVec 8 → BitVec 8) (calls : List MemCall),
    Runs.Each MemCall.next Proper (fwMemInit cmos) calls → Runs.Each MemCall.next Exact (fwMemInit cmos) calls := fun h => by
  have hexact := (h (fun _ => 0) [.allocPages (2 ^ 52) efiBootServicesData] ⟨trivial, trivial⟩).1
  have hfit : PagesFit (fwMemInit fun _ => 0) (2 ^ 52) efiBootServicesData :=
    ((allocPages_iff (fwMemInit_sound _) _ _).1 hexact).resolve_left (by decide)
  revert hfit
  decide

end WuBuOS.Firmware
