import WuBuOS.Kernel.MemoryLayout
import WuBuOS.Lib.Runs
import Mathlib.Order.Interval.Set.Disjoint

/-!
# The heap along every run

What `mem_alloc` and `mem_free` do to the layout of the heap, and from it what holds after every
sequence of calls.

`mem_alloc` is safe as long as its additions do not overflow.  `mem_free` is not: it takes the word
behind a block for the header of a free block whenever the signature fits, and if it does not find
that block on the list for its size it joins the two all the same.  A remainder that `mem_alloc` splits
off goes to `malloc_free_list` whatever its size, while `mem_free` looks for one of less than 512
bytes in a bucket; so the join leaves it on `malloc_free_list`, inside a larger free block
(`split_then_free_overlaps`).  `blocks_disjoint` says that this is all that can go wrong: as long as
the block behind is on the list it is looked for on, all blocks stay apart.
-/

namespace WuBuOS.Memory

open Bytes Linked Extents Runs
open Function (update update_of_ne update_self update_eq_self)

variable {h h' : Heap} {own own' : Nat → Option Place} {span span' : Nat → Nat} {mu total : Nat}

/-- The same blocks are in use, for as many bytes. -/
def SameLive (own own' : Nat → Option Place) : Prop :=
  ∀ a n, own' a = some (.live n) ↔ own a = some (.live n)

theorem SameLive.refl (own : Nat → Option Place) : SameLive own own := fun _ _ => Iff.rfl

theorem SameLive.trans {own'' : Nat → Option Place} (h1 : SameLive own own')
    (h2 : SameLive own' own'') : SameLive own own'' :=
  fun a n => (h2 a n).trans (h1 a n)

/-- A block that is not in use, before or after, does not count. -/
theorem sameLive_update {x : Nat} {q : Option Place} (hx : ∀ n, own x ≠ some (.live n))
    (hq : ∀ n, q ≠ some (.live n)) : SameLive own (update own x q) := by
  intro a n
  rcases eq_or_ne a x with rfl | hax
  · rw [update_self]
    exact iff_of_false (hq n) (hx n)
  · rw [update_of_ne hax]

/-! ## Allocation -/

/-- What `mem_alloc` needs of a block it has got hold of, to make use of it. -/
structure Usable (h : Heap) (own : Nat → Option Place) (span : Nat → Nat) (mu total : Nat) : Prop where
  inv : Inv h own span
  held : own mu = some .held
  room : total ≤ span mu
  size : h.size mu ≤ span mu
  size_zero_or : h.size mu = 0 ∨ 64 ≤ h.size mu

/-- The search of a list ends, and takes a block off it or leaves the heap alone. -/
theorem Inv.search_take (hi : Inv h own span) (l : FreeList) (hit : Nat → Bool) :
    ∃ r, search h.next 0 hit h.gHeapTotal 0 (h.head l) = some r ∧
      (r = none ∧ (∀ x, own x = some (.free l) → hit x = false) ∨
        ∃ prev x, r = some (prev, x) ∧ own x = some (.free l) ∧ hit x = true ∧
          Inv (h.relink l prev (h.next x)) (update own x (some .held)) span ∧
          ∀ a, own a ≠ none → (h.relink l prev (h.next x)).size a = h.size a) := by
  obtain ⟨xs, hxs, -, hmem⟩ := hi.chain l
  have hends : search h.next 0 hit h.gHeapTotal 0 (h.head l) ≠ none :=
    search_ne_none hxs (hi.length_lt hxs)
  obtain ⟨r, hr⟩ := Option.ne_none_iff_exists'.1 hends
  refine ⟨r, hr, ?_⟩
  rcases search_spec hxs hr with ⟨rfl, hno⟩ | ⟨l1, x, l2, rfl, hx, rfl⟩
  · exact Or.inl ⟨rfl, fun x hx => hno x ((hmem x).2 hx)⟩
  · refine Or.inr ⟨_, x, rfl, (hmem x).1 (by simp), hx, hi.take hxs, ?_⟩
    exact (hi.relink_frame (hi.prev_mem hxs)).2.1

/-- Taking the first block off a list is redirecting the link before it. -/
theorem Inv.take_head (hi : Inv h own span) {l : FreeList} (hne : h.head l ≠ 0) : own (h.head l) = some (.free l) ∧
      Inv (h.setHead l (h.next (h.head l))) (update own (h.head l) (some .held)) span := by
  obtain ⟨xs, hxs, -, hmem⟩ := hi.chain l
  cases xs with
  | nil => exact absurd hxs hne
  | cons x xs =>
    obtain rfl : h.head l = x := hxs.1
    refine ⟨(hmem _).1 (by simp), ?_⟩
    exact hi.take (show IsList h.next 0 (h.head l) ([] ++ h.head l :: xs) from hxs)

/-- The list part of `mem_alloc` ends, with a block that is large enough or none. -/
theorem findBlock_spec (hi : Inv h own span) (ht : 64 ≤ total) : ∃ r, findBlock h total = some r ∧
      (r = (h, 0) ∨ ∃ own', Usable r.1 own' span r.2 total ∧ SameLive own own') := by
  rw [findBlock]
  split
  · -- the first block of the bucket, whose size is the bucket's
    rename_i hb
    obtain ⟨hu, hi'⟩ := hi.take_head (l := .bucket total) hb.2
    have hsize : h.size (h.heapHash total) = total := hi.bucket total _ hu
    have hle : h.size (h.heapHash total) ≤ span (h.heapHash total) := hi.size_of_free hu
    refine ⟨_, rfl, Or.inr ⟨_, ⟨hi', update_self .., hsize.symm.trans_le hle, ?_, ?_⟩,
      sameLive_update (by simp [hu]) (by simp)⟩⟩
    · rw [size_setHead]
      exact hle
    · rw [size_setHead]
      exact Or.inr (ht.trans (Nat.le_of_eq hsize.symm))
  · obtain ⟨r, hr, hcase⟩ := hi.search_take .mallocFreeList fun b => total ≤ h.size b
    rw [show h.mallocFreeList = h.head .mallocFreeList from rfl, hr]
    rcases hcase with ⟨rfl, -⟩ | ⟨prev, x, rfl, hx, hfit, hi', hsize⟩
    · exact ⟨_, rfl, Or.inl rfl⟩
    · have hfit : total ≤ h.size x := by simpa using hfit
      have hx' := ne_none_of_eq hx
      have hle := hi.size_of_free hx
      refine ⟨_, rfl, Or.inr ⟨_, ⟨hi', update_self .., hfit.trans hle, ?_, ?_⟩,
        sameLive_update (by simp [hx]) (by simp)⟩⟩
      · exact (hsize x hx').trans_le hle
      · exact Or.inr ((ht.trans hfit).trans (Nat.le_of_eq (hsize x hx').symm))

/-- How many bytes of pages a block takes. -/
def pageBytes (total : Nat) : Nat := (total + memPagSize - 1) / memPagSize * memPagSize

/-- The page part of `mem_alloc`, if its additions do not overflow. -/
theorem freshBlock_spec (hi : Inv h own span) (ht : 64 ≤ total) (hov : h.gNextPage + pageBytes total < 2 ^ 64) :
    freshBlock h total = (h, 0) ∨ ∃ own' span', Usable (freshBlock h total).1 own' span' (freshBlock h total).2 total ∧
        (freshBlock h total).2 ≠ 0 ∧ SameLive own own' := by
  have hpage : total ≤ pageBytes total ∧ 64 ≤ pageBytes total ∧ pageBytes total % 4096 = 0 := by
    simp only [pageBytes, memPagSize]
    omega
  have hpages : w64 (w64 (total + memPagSize - 1) / memPagSize * memPagSize) = pageBytes total := by
    have : total + memPagSize - 1 < 2 ^ 64 := by
      simp only [pageBytes, memPagSize] at hov ⊢
      omega
    rw [w64, w64, Nat.mod_eq_of_lt this]
    exact Nat.mod_eq_of_lt (by rw [pageBytes] at hov; omega)
  have hnext : w64 (h.gNextPage + pageBytes total) = h.gNextPage + pageBytes total :=
    Nat.mod_eq_of_lt hov
  simp only [freshBlock, allocPages, hpages, hnext]
  split
  · rw [if_pos rfl]
    exact Or.inl rfl
  · rename_i hfit
    have h0 : h.gNextPage ≠ 0 := by
      have h1 := hi.bottom
      have h2 : h.bottom = h.gHeap + 8192 := rfl
      omega
    rw [if_neg h0]
    have hi' := hi.fresh (w := pageBytes total) (by omega) (by omega)
    have hheld := update_self h.gNextPage (some Place.held) own
    refine Or.inr ⟨_, _, ⟨hi'.setSize hheld _, hheld, ?_, ?_, ?_⟩, h0, sameLive_update (fun n hn => ?_) (by simp)⟩
    · rw [update_self]
      exact hpage.1
    · rw [update_self, size_setSize]
      exact Nat.mod_le ..
    · rw [size_setSize]
      omega
    · have h1 := hi.high _ (ne_none_of_eq hn)
      have h2 := hi.room _ (ne_none_of_eq hn)
      omega

/-- Splitting a block puts the rest on the free list, and leaves the block to be shortened. -/
theorem splitBlock_spec (hu : Usable h own span mu total) (ht : 64 ≤ total) (hsplit : total + 32 < h.size mu) :
    ∃ own' span', Inv (splitBlock h mu total) own' span' ∧ own' mu = some .held ∧ span' mu = total ∧
      SameLive own own' := by
  have hmu := ne_none_of_eq hu.held
  have hsize := hu.size
  have hne : mu ≠ mu + total := by omega
  have hi1 := hu.inv.split hu.held (w := total) (by omega) (by omega)
  have hrem := update_self (mu + total) (some Place.held) own
  have hi2 := ((hi1.setSig hrem memUnusedSignature).setSize hrem (h.size mu - total)).setNext hrem 0
  have hnone : ∀ n, own (mu + total) ≠ some (.live n) := by
    intro n hn
    have := hu.inv.apart mu hmu _ (ne_none_of_eq hn) hne
    omega
  refine ⟨_, _, hi2.link hrem (l := .mallocFreeList) ?_, ?_, ?_, ?_⟩
  · show _ ≤ _
    rw [update_self, size_setNext _ _ (Or.inl rfl), size_setSize]
    exact (Nat.mod_le ..).trans (Nat.sub_le_sub_right hsize total)
  · rw [update_of_ne hne, update_of_ne hne]
    exact hu.held
  · rw [update_of_ne hne, update_self]
  · exact (sameLive_update hnone (by simp)).trans (sameLive_update (by simp) (by simp))

/-- Trimming a block keeps it usable. -/
theorem trimBlock_spec (hu : Usable h own span mu total) (ht : 64 ≤ total) :
    ∃ own' span', Usable (trimBlock h mu total) own' span' mu total ∧ SameLive own own' := by
  rw [trimBlock]
  have hlt : h.size mu < 2 ^ 32 := get_lt ..
  have hset : ∀ h' own' span', Inv h' own' span' → own' mu = some .held → total ≤ span' mu →
      total < h.size mu → Usable (h'.setSize mu total) own' span' mu total := by
    intro h' own' span' hi hheld hext htot
    have hsize : (h'.setSize mu total).size mu = total := by
      rw [size_setSize]
      exact Nat.mod_eq_of_lt (htot.trans hlt)
    exact ⟨hi.setSize hheld total, hheld, hext, hsize.trans_le hext, Or.inr (hsize.symm ▸ ht)⟩
  split
  · rename_i htot
    have hw : w64 (total + sizeofMemUsed + 16) = total + 32 :=
      Nat.mod_eq_of_lt (by simp only [sizeofMemUsed]; omega)
    rw [hw]
    split
    · rename_i hsplit
      obtain ⟨own', span', hi', hheld, hext, hlive⟩ := splitBlock_spec hu ht hsplit
      exact ⟨own', span', hset _ _ _ hi' hheld hext.ge htot, hlive⟩
    · exact ⟨own, span, hset _ _ _ hu.inv hu.held hu.room htot, .refl own⟩
  · exact ⟨own, span, hu, .refl own⟩

theorem redZone_outside {m : Nat → UInt8} {a v y : Nat} (hy : y < a ∨ a + 16 ≤ y) : redZone m a v y = m y := by
  rw [redZone, put, put, put, put, write_outside (by omega), write_outside (by omega),
    write_outside (by omega), write_outside (by omega)]

/-- The canaries do not touch the size of the block. -/
theorem size_writeCanaries (hsize : h.size mu = 0 ∨ 64 ≤ h.size mu) : (writeCanaries h mu).size mu = h.size mu := by
  have hlt : h.size mu < 2 ^ 32 := get_lt ..
  refine get_congr fun y h1 h2 => ?_
  rw [writeCanaries]
  dsimp only
  rw [redZone_outside, redZone_outside (by simp only [sizeofMemUsed]; omega)]
  simp only [w64, sizeofMemUsed, memRedZoneSize]
  omega

/-- The canaries are written behind the header of the block, or, if its size does not fit the header,
before it; no header is there. -/
theorem Usable.header_writeCanaries (hu : Usable h own span mu total) (ht : 64 ≤ total) {b y : Nat}
    (hb : own b ≠ none) (h1 : b ≤ y) (h2 : y < b + 16) : (writeCanaries h mu).mem y = h.mem y := by
  have hmu := ne_none_of_eq hu.held
  have hbound := hu.inv.bounds hmu
  have hsize := hu.size
  have hroom := hu.room
  have hlow := hu.inv.low mu hmu
  have hbot : h.bottom = h.gHeap + 8192 := rfl
  have hzero := hu.size_zero_or
  have hfar : b = mu ∨ b + 32 ≤ mu ∨ mu + span mu ≤ b := by
    rcases eq_or_ne b mu with rfl | hbm
    · exact Or.inl rfl
    · have h1 := hu.inv.room b hb
      have h2 := hu.inv.apart b hb mu hmu hbm
      omega
  have hback : w64 (mu + sizeofMemUsed + memRedZoneSize +
      w64 (h.size mu + 2 ^ 64 - sizeofMemUsed - 2 * memRedZoneSize)) =
        if h.size mu = 0 then mu - 16 else mu + h.size mu - 16 := by
    simp only [w64, sizeofMemUsed, memRedZoneSize]
    split <;> omega
  rw [writeCanaries, hback]
  dsimp only
  rw [redZone_outside (by split <;> omega), redZone_outside (by simp only [sizeofMemUsed]; omega)]

theorem writeCanaries_spec (hu : Usable h own span mu total) (ht : 64 ≤ total) :
    Usable (writeCanaries h mu) own span mu total := by
  have hi : Inv (writeCanaries h mu) own span :=
    hu.inv.of_mem fun b hb _ y h1 h2 => hu.header_writeCanaries ht hb h1 h2
  have hsame := size_writeCanaries hu.size_zero_or
  exact ⟨hi, hu.held, hu.room, hsame.trans_le hu.size, hsame.symm ▸ hu.size_zero_or⟩

theorem Inv.setUsedSize (hi : Inv h own span) (v : Nat) : Inv { h with usedSize := v } own span :=
  hi.of_fields ⟨rfl, rfl, rfl, rfl⟩ (funext fun l => by cases l <;> rfl) fun _ _ _ => ⟨rfl, rfl⟩

theorem Usable.setUsedSize (hu : Usable h own span mu total) (v : Nat) :
    Usable { h with usedSize := v } own span mu total :=
  ⟨hu.inv.setUsedSize v, hu.held, hu.room, hu.size, hu.size_zero_or⟩

/-- It is marked as a block in use. -/
theorem Usable.marked (hu : Usable h own span mu total) : (h.setSig mu memUsedSignature).size mu = h.size mu ∧
    Usable (h.setSig mu memUsedSignature) own span mu total := by
  have hsize : (h.setSig mu memUsedSignature).size mu = h.size mu := size_setSig _ _ (Or.inl rfl)
  exact ⟨hsize, hu.inv.setSig hu.held _, hu.held, hu.room, hsize.trans_le hu.size, hsize.symm ▸ hu.size_zero_or⟩

theorem useBlock_spec (hu : Usable h own span mu total) (ht : 64 ≤ total) :
    ∃ own' span', Usable (useBlock h mu total) own' span' mu total ∧ SameLive own own' := by
  obtain ⟨own', span', hu2, hlive⟩ := trimBlock_spec hu.marked.2 ht
  have hu3 := writeCanaries_spec hu2 ht
  exact ⟨own', span', hu3.setUsedSize _, hlive⟩

/-- The additions of `mem_alloc` do not overflow: neither the size of the block, nor, if no list has a
block for it, the end of the pages. -/
def AllocOk (h : Heap) (size : Nat) : Prop :=
  size + 63 < 2 ^ 64 ∧
    (findBlock h (allocTotal size) = some (h, 0) →
      h.gNextPage + pageBytes (allocTotal size) < 2 ^ 64)

theorem allocTotal_spec {size : Nat} (hs : size + 63 < 2 ^ 64) :
    64 ≤ allocTotal size ∧ size + 48 ≤ allocTotal size := by
  have hw : ∀ n, 0 < n → n + 63 < 2 ^ 64 →
      w64 (w64 (n + sizeofMemUsed + 2 * memRedZoneSize) + 15) / 16 * 16 = (n + 63) / 16 * 16 := by
    intro n _ hn
    simp only [w64, sizeofMemUsed, memRedZoneSize]
    omega
  rw [allocTotal]
  split
  · rw [hw 1 (by omega) (by omega)]
    omega
  · rw [hw size (by omega) hs]
    omega

/-- The block at `mu` is given to a user, for so many bytes. -/
def Given (own own' : Nat → Option Place) (mu bytes : Nat) : Prop :=
  (∀ n, own mu ≠ some (.live n)) ∧
    ∀ a n, own' a = some (.live n) ↔ a = mu ∧ n = bytes ∨ own a = some (.live n)

/-- What `mem_alloc`, and what is built on it, leaves: `NULL` and the blocks that were in use before,
or one more. -/
def Allocated (own : Nat → Option Place) (r : Heap × Nat) (bytes : Nat) : Prop :=
  ∃ own' span', Inv r.1 own' span' ∧
    (r.2 = 0 ∧ SameLive own own' ∨
      ∃ mu, r.2 = userPtr mu ∧ Given own own' mu bytes)

theorem Usable.give (hu : Usable h own span mu total) {bytes : Nat} (hb : bytes + 48 ≤ total) :
    Inv h (update own mu (some (.live bytes))) span ∧
      Given own (update own mu (some (.live bytes))) mu bytes := by
  refine ⟨hu.inv.give hu.held hu.size (hb.trans hu.room) hu.size_zero_or, by simp [hu.held], ?_⟩
  intro a n
  rcases eq_or_ne a mu with rfl | ha
  · simp [hu.held, eq_comm]
  · simp [ha]

theorem Given.of_sameLive {own'' : Nat → Option Place} {bytes : Nat} (hl : SameLive own own')
    (hg : Given own' own'' mu bytes) : Given own own'' mu bytes :=
  ⟨fun n hn => hg.1 n ((hl mu n).2 hn), fun a n =>
    (hg.2 a n).trans (or_congr_right (hl a n))⟩

/-- **`mem_alloc` returns**, and gives a block to the user or leaves the blocks in use as they are. -/
theorem memAlloc_spec (hi : Inv h own span) {size : UInt64} (hok : AllocOk h size.toNat) :
    ∃ r, memAlloc h size = some r ∧ Allocated own r size.toNat := by
  obtain ⟨ht, hsize⟩ := allocTotal_spec hok.1
  obtain ⟨r, hr, hcase⟩ := findBlock_spec hi ht
  rw [memAlloc, if_neg hi.heap]
  dsimp only
  rw [hr]
  refine ⟨_, rfl, ?_⟩
  have hgive : ∀ (h' : Heap) own' span' mu, Usable h' own' span' mu (allocTotal size.toNat) → SameLive own own' →
      Allocated own (useBlock h' mu (allocTotal size.toNat), userPtr mu) size.toNat := by
    intro h' own' span' mu hu hlive
    obtain ⟨own'', span'', hu', hlive'⟩ := useBlock_spec hu ht
    obtain ⟨hi', hg⟩ := hu'.give hsize
    exact ⟨_, _, hi', Or.inr ⟨mu, rfl, hg.of_sameLive (hlive.trans hlive')⟩⟩
  beta_reduce
  rcases hcase with rfl | ⟨own', hu, hlive⟩
  · rw [if_pos rfl]
    rcases freshBlock_spec hi ht (hok.2 hr) with hf | ⟨own', span', hu, h0, hlive⟩
    · rw [hf, if_pos rfl]
      exact ⟨own, span, hi, Or.inl ⟨rfl, .refl own⟩⟩
    · rw [if_neg h0]
      exact hgive _ _ _ _ hu hlive
  · have h0 := (hu.inv.bounds (ne_none_of_eq hu.held)).1
    rw [if_neg h0, if_neg h0]
    exact hgive _ _ _ _ hu hlive

/-- Memory is written in a block that has just been given. -/
theorem Allocated.write {r : Heap × Nat} {bytes n : Nat} {f : Nat → UInt8}
    (ha : Allocated own r bytes) (h0 : r.2 ≠ 0) (hn : n ≤ bytes) :
    Allocated own ({ r.1 with mem := write r.1.mem r.2 n f }, r.2) bytes := by
  obtain ⟨own', span', hi, ⟨hr, -⟩ | ⟨mu, hr, hg⟩⟩ := ha
  · exact absurd hr h0
  · have hmu : own' mu = some (.live bytes) := (hg.2 mu bytes).2 (Or.inl ⟨rfl, rfl⟩)
    have hext := (hi.usable mu bytes hmu).1
    refine ⟨own', span', hi.write (ne_none_of_eq hmu) ?_ ?_, Or.inr ⟨mu, hr, hg⟩⟩ <;>
      simp only [hr, userPtr, sizeofMemUsed, memRedZoneSize] <;> omega

theorem memCalloc_spec (hi : Inv h own span) {count size : UInt64} (hok : AllocOk h (count * size).toNat) :
    ∃ r, memCalloc h count size = some r ∧ Allocated own r (count * size).toNat := by
  obtain ⟨r, hr, ha⟩ := memAlloc_spec hi hok
  rw [memCalloc, hr]
  refine ⟨_, rfl, ?_⟩
  beta_reduce
  split
  · exact ha
  · exact ha.write ‹_› (Nat.le_refl _)

/-! ## Freeing -/

theorem Inv.behind_eq (hi : Inv h own span) (hmu : own mu ≠ none) (hsize : h.size mu ≤ span mu) :
    behind h mu = mu + h.size mu :=
  Nat.mod_eq_of_lt (by have := (hi.bounds hmu).2; omega)

/-- A block that begins where another one's size says it ends begins where that one ends. -/
theorem Inv.span_eq_size (hi : Inv h own span) (hmu : own mu ≠ none) (hsize : h.size mu ≤ span mu)
    (hnu : own (mu + h.size mu) ≠ none) (hne : mu + h.size mu ≠ mu) : span mu = h.size mu := by
  have h1 := hi.apart mu hmu _ hnu hne.symm
  omega

/-- **Joining with the block behind**, if that is on the list it is looked for on. -/
theorem coalesce_spec (hi : Inv h own span) (hmu : own mu = some .held) (hsize : h.size mu ≤ span mu)
    (hfree : freeBehind h mu = true → behind h mu = mu ∨
      own (behind h mu) = some (.free (listFor (h.size (behind h mu))))) :
    ∃ h', coalesce h mu = some h' ∧ ∃ own' span', Inv h' own' span' ∧ SameLive own own' ∧
      own' mu = some .held ∧ h'.size mu ≤ span' mu := by
  rw [coalesce]
  have hmu' := ne_none_of_eq hmu
  have hbehind := hi.behind_eq hmu' hsize
  split
  · rename_i hf
    have hfree := hfree hf
    rw [hbehind] at hfree ⊢
    obtain ⟨r, hr, hcase⟩ := hi.search_take (listFor (h.size (mu + h.size mu)))
      fun c => c == mu + h.size mu
    dsimp only
    rw [unlinkBlock, hr]
    refine ⟨_, rfl, ?_⟩
    rcases hcase with ⟨rfl, hno⟩ | ⟨prev, x, rfl, hx, hhit, hi', hsame⟩
    · -- a block whose size is zero takes itself for the block behind
      have h0 : h.size mu = 0 := by
        rcases hfree with hz | hz
        · omega
        · exact absurd (hno _ hz) (by simp)
      refine ⟨own, span, hi.setSize hmu _, .refl own, hmu, ?_⟩
      rw [size_setSize, h0, Nat.add_zero, h0]
      exact Nat.zero_le _
    · obtain rfl : x = mu + h.size mu := by simpa using hhit
      have hne : mu + h.size mu ≠ mu := by
        intro he
        rw [he, hmu] at hx
        simp at hx
      have hext := hi.span_eq_size hmu' hsize (ne_none_of_eq hx) hne
      have hheld : update own (mu + h.size mu) (some Place.held) mu = some .held := by
        rw [update_of_ne hne.symm, hmu]
      have hm := hi'.merge hheld (by rw [hext, update_self])
      rw [hext] at hm
      have hheld' := hheld
      rw [← update_of_ne hne.symm none (update own (mu + h.size mu) (some .held))]
        at hheld'
      refine ⟨_, _, hm.setSize hheld' _, ?_, hheld', ?_⟩
      · exact (sameLive_update (by simp [hx]) (by simp)).trans (sameLive_update (by simp) (by simp))
      · rw [update_self, size_setSize]
        have h1 := hi.size_of_free hx
        have h2 := hsame mu hmu'
        have h3 := hsame _ (ne_none_of_eq hx)
        exact (Nat.mod_le ..).trans (by rw [h2, h3]; omega)
  · exact ⟨h, rfl, own, span, hi, .refl own, hmu, hsize⟩

/-- If there is a free block behind the block, as far as `mem_free` can tell, it is on the list that
`mem_free` looks for it on. -/
def FreeOk (h : Heap) (mu : Nat) : Prop :=
  freeBehind h mu = true →
    ∃ xs, IsList h.next 0 (h.head (listFor (h.size (behind h mu)))) xs ∧ behind h mu ∈ xs

/-- What `mem_free` leaves: one block less is in use. -/
def Freed (own own' : Nat → Option Place) (mu : Nat) : Prop :=
  ∀ a n, own' a = some (.live n) ↔ a ≠ mu ∧ own a = some (.live n)

theorem freed_update {q : Option Place} (hq : ∀ n, q ≠ some (.live n)) : Freed own (update own mu q) mu := by
  intro a n
  rcases eq_or_ne a mu with rfl | ha
  · rw [update_self]
    exact iff_of_false (hq n) fun h => h.1 rfl
  · rw [update_of_ne ha]
    exact (and_iff_right ha).symm

theorem Freed.sameLive {own'' : Nat → Option Place} (hf : Freed own own' mu)
    (hl : SameLive own' own'') : Freed own own'' mu :=
  fun a n => (hl a n).trans (hf a n)

theorem fits_listFor {size span : Nat} (h : size ≤ span) : Fits size span (.free (listFor size)) := by
  rw [listFor]
  split
  · exact ⟨h, rfl⟩
  · exact h

/-- The header of the block that is marked does not reach what is behind the block. -/
theorem sig_markUnused {nu : Nat} (hfar : mu + 16 ≤ nu) : (markUnused h mu).sig nu = h.sig nu := by
  show get (put (put h.mem mu 4 memUnusedSignature) (mu + 8) 8 0) nu 4 = get h.mem nu 4
  rw [get_put_outside (by omega), get_put_outside (by omega)]

theorem size_markUnused {nu : Nat} (hfar : nu = mu ∨ mu + 16 ≤ nu) : (markUnused h mu).size nu = h.size nu := by
  show get (put (put h.mem mu 4 memUnusedSignature) (mu + 8) 8 0) (nu + 4) 4 = get h.mem (nu + 4) 4
  rw [get_put_outside (by omega), get_put_outside (by omega)]

theorem behind_markUnused : behind (markUnused h mu) mu = behind h mu := by
  rw [behind, behind, size_markUnused (Or.inl rfl)]

/-- The block that is marked is in the hands of `mem_free`. -/
theorem Inv.markUnused {n : Nat} (hi : Inv h own span) (hmu : own mu = some (.live n)) :
    Inv (Memory.markUnused h mu) (update own mu (some .held)) span := by
  have hheld := update_self mu (some Place.held) own
  exact (((hi.hold hmu).setUsedSize _).setSig hheld _).setNext hheld _

/-- Once the block is marked, the block behind it is still on its list. -/
theorem FreeOk.markUnused {n : Nat} (hi : Inv h own span) (hmu : own mu = some (.live n))
    (hok : FreeOk h mu) (hf : freeBehind (Memory.markUnused h mu) mu = true) :
    behind (Memory.markUnused h mu) mu = mu ∨
      update own mu (some .held) (behind (Memory.markUnused h mu) mu) = some
        (.free (listFor ((Memory.markUnused h mu).size (behind (Memory.markUnused h mu) mu)))) := by
  have hmu' := ne_none_of_eq hmu
  have hbehind := hi.behind_eq hmu' (hi.size mu hmu' (by simp [hmu]))
  rw [behind_markUnused]
  rcases (hi.usable mu n hmu).2 with h0 | h64
  · rw [hbehind, h0]
    exact Or.inl rfl
  · right
    have hf' : freeBehind h mu = true := by
      rw [freeBehind, behind_markUnused, sig_markUnused (by omega)] at hf
      exact hf
    obtain ⟨xs, hxs, hmem⟩ := hok hf'
    rw [update_of_ne (by omega), size_markUnused (by omega)]
    exact ((hi.list hxs).2 _).1 hmem

theorem blockOf_userPtr (mu : Nat) : blockOf (userPtr mu) = mu := by
  simp only [blockOf, userPtr, sizeofMemUsed, memRedZoneSize]
  omega

/-- **`mem_free` returns**, and takes the block back. -/
theorem memFree_spec {n : Nat} (hi : Inv h own span) (hmu : own mu = some (.live n)) (hok : FreeOk h mu) :
    ∃ h', memFree h (userPtr mu) = some h' ∧ ∃ own' span', Inv h' own' span' ∧ Freed own own' mu := by
  have hmu' := ne_none_of_eq hmu
  have hsize := hi.size mu hmu' (by simp [hmu])
  have h0 : userPtr mu ≠ 0 := by
    simp only [userPtr, sizeofMemUsed, memRedZoneSize]
    omega
  have hheld := update_self mu (some Place.held) own
  rw [memFree, if_neg (not_or.2 ⟨h0, hi.heap⟩), blockOf_userPtr]
  dsimp only
  split
  · exact ⟨h, rfl, _, span, (hi.hold hmu).forget hheld, by
      rw [Function.update_idem]; exact freed_update (by simp)⟩
  · obtain ⟨h', hc, own', span', hi3, hlive, hheld', hsize'⟩ := coalesce_spec (hi.markUnused hmu) hheld
      (by rw [size_markUnused (Or.inl rfl)]; exact hsize) (hok.markUnused hi hmu)
    rw [hc]
    refine ⟨_, rfl, _, span', hi3.link hheld' (fits_listFor hsize'), ?_⟩
    refine Freed.sameLive ?_ (hlive.trans (sameLive_update (by simp [hheld']) (by simp)))
    exact freed_update (by simp)

/-! ## Calls -/

/-- The heap and the pointers that are live, each with the number of bytes its user asked for. -/
structure Sys where
  heap : Heap
  live : Nat → Option Nat

/-- What a user of the heap can do.  `poke` is a byte written to memory it was given. -/
inductive Call
  | alloc (size : UInt64)
  | calloc (count size : UInt64)
  | realloc (ptr : Nat) (newSize : UInt64)
  | free (ptr : Nat)
  | poke (ptr offset : Nat) (byte : UInt8)
  deriving Repr

/-- A pointer that was returned is live, unless it is `NULL`. -/
def grant (live : Nat → Option Nat) (ptr bytes : Nat) : Nat → Option Nat :=
  if ptr = 0 then live else update live ptr (some bytes)

/-- What `mem_realloc` does to the live pointers. -/
def reallocLive (live : Nat → Option Nat) (ptr : Nat) (newSize : UInt64) (res : Nat) :
    Nat → Option Nat :=
  if ptr ≠ 0 ∧ newSize = 0 then update live ptr none
  else if res = 0 then live
  else update (update live ptr none) res (some newSize.toNat)

/-- One call. -/
def step (s : Sys) : Call → Option Sys
  | .alloc size => (memAlloc s.heap size).map fun r => ⟨r.1, grant s.live r.2 size.toNat⟩
  | .calloc count size =>
    (memCalloc s.heap count size).map fun r => ⟨r.1, grant s.live r.2 (count * size).toNat⟩
  | .realloc ptr newSize =>
    (memRealloc s.heap ptr newSize).map fun r => ⟨r.1, reallocLive s.live ptr newSize r.2⟩
  | .free ptr => (memFree s.heap ptr).map fun h => ⟨h, update s.live ptr none⟩
  | .poke ptr offset byte =>
    some ⟨{ s.heap with mem := write s.heap.mem (ptr + offset) 1 fun _ => byte }, s.live⟩

/-- Only live pointers, or `NULL`, are freed and reallocated, and only memory that was asked for is
written. -/
def Legal (s : Sys) : Call → Prop
  | .alloc _ => True
  | .calloc _ _ => True
  | .realloc ptr _ => ptr = 0 ∨ s.live ptr ≠ none
  | .free ptr => ptr = 0 ∨ s.live ptr ≠ none
  | .poke ptr offset _ => offset < (s.live ptr).getD 0

instance (s : Sys) : (c : Call) → Decidable (Legal s c)
  | .alloc _ | .calloc _ _ => inferInstanceAs (Decidable True)
  | .realloc ptr _ => inferInstanceAs (Decidable (ptr = 0 ∨ s.live ptr ≠ none))
  | .free ptr => inferInstanceAs (Decidable (ptr = 0 ∨ s.live ptr ≠ none))
  | .poke ptr offset _ => inferInstanceAs (Decidable (offset < (s.live ptr).getD 0))

/-- The heap that `mem_init` makes, and no live pointers. -/
def start (mem : Nat → UInt8) (base totalBytes : Nat) : Sys :=
  ⟨(memInit mem base totalBytes).1, fun _ => none⟩

/-- Where a call allocates, nothing overflows, and where it frees, the free block behind, if there is
one, is on the list for its size. -/
def Sound (s : Sys) : Call → Prop
  | .alloc size => AllocOk s.heap size.toNat
  | .calloc count size => AllocOk s.heap (count * size).toNat
  | .realloc ptr newSize =>
    if ptr ≠ 0 ∧ newSize = 0 then FreeOk s.heap (blockOf ptr)
    else AllocOk s.heap newSize.toNat ∧
      (ptr ≠ 0 → ∀ r, reallocCopy s.heap ptr newSize = some r → r.2 ≠ 0 → FreeOk r.1 (blockOf ptr))
  | .free ptr => ptr ≠ 0 → FreeOk s.heap (blockOf ptr)
  | .poke _ _ _ => True

/-- The bytes of a block, as its header has them. -/
def Heap.bytes (h : Heap) (b : Nat) : Set Nat := Set.Ico b (b + h.size b)

/-- The blocks that are in use or on a list. -/
def Sys.blocks (s : Sys) (lists : FreeList → List Nat) : Set Nat :=
  { b | s.live (userPtr b) ≠ none ∨ ∃ l, b ∈ lists l }

/-- **No overlap.**  The lists are lists, no block is on them twice, on two of them, or on one while it
is in use; all blocks are disjoint and inside the heap, and so is what users were given. -/
structure NonOverlap (s : Sys) (lists : FreeList → List Nat) : Prop where
  isList : ∀ l, IsList s.heap.next 0 (s.heap.head l) (lists l)
  nodup : ∀ l, (lists l).Nodup
  one_list : ∀ l l', l ≠ l' → ∀ b ∈ lists l, b ∉ lists l'
  not_live : ∀ l, ∀ b ∈ lists l, s.live (userPtr b) = none
  disjoint : ∀ a ∈ s.blocks lists, ∀ b ∈ s.blocks lists, a ≠ b →
    Disjoint (s.heap.bytes a) (s.heap.bytes b)
  inside : ∀ b ∈ s.blocks lists, s.heap.bytes b ⊆ Set.Ico s.heap.gHeap s.heap.gHeapEnd
  users : ∀ p n q k, s.live p = some n → s.live q = some k → p ≠ q →
    Disjoint (Set.Ico p (p + n)) (Set.Ico q (q + k))

/-- The blocks in use are those of the live pointers. -/
def Owns (live : Nat → Option Nat) (own : Nat → Option Place) : Prop :=
  ∀ p n, live p = some n ↔ ∃ a, p = userPtr a ∧ own a = some (.live n)

/-- There is a heap and its layout is right, or `mem_init` has failed. -/
def Good (s : Sys) : Prop :=
  (∃ own span, Inv s.heap own span ∧ Owns s.live own) ∨
    (s.heap.gHeap = 0 ∧ (∀ l, s.heap.head l = 0) ∧ ∀ p, s.live p = none)

variable {s t : Sys} {live : Nat → Option Nat}

theorem userPtr_inj {a b : Nat} (h : userPtr a = userPtr b) : a = b := by
  rw [← blockOf_userPtr a, h, blockOf_userPtr]

theorem userPtr_ne_zero (a : Nat) : userPtr a ≠ 0 := by
  simp only [userPtr, sizeofMemUsed, memRedZoneSize]
  omega

theorem Owns.live_userPtr (ho : Owns live own) {a n : Nat} : live (userPtr a) = some n ↔ own a = some (.live n) := by
  refine (ho (userPtr a) n).trans ⟨?_, fun ha => ⟨a, rfl, ha⟩⟩
  rintro ⟨b, hb, hown⟩
  rwa [userPtr_inj hb]

theorem Owns.of_ne_none (ho : Owns live own) {p : Nat} (hp : live p ≠ none) :
    ∃ a n, p = userPtr a ∧ own a = some (.live n) := by
  obtain ⟨n, hn⟩ := Option.ne_none_iff_exists'.1 hp
  obtain ⟨a, rfl, ha⟩ := (ho p n).1 hn
  exact ⟨a, n, rfl, ha⟩

theorem Owns.of_poke {s : Sys} (ho : Owns s.live own) (hl : Legal s (.poke ptr offset byte)) :
    ∃ a n, ptr = userPtr a ∧ own a = some (.live n) ∧ offset < n := by
  have hne : s.live ptr ≠ none := fun h0 => by
    rw [Legal, h0] at hl
    exact Nat.not_lt_zero _ hl
  obtain ⟨a, n, rfl, ha⟩ := ho.of_ne_none hne
  exact ⟨a, n, rfl, ha, by rwa [Legal, ho.live_userPtr.2 ha] at hl⟩

theorem disjoint_Ico {a m b n : Nat} (h : a + m ≤ b ∨ b + n ≤ a) :
    Disjoint (Set.Ico a (a + m)) (Set.Ico b (b + n)) := by
  rw [Set.Ico_disjoint_Ico]
  omega

/-- **A layout that is right has no overlaps.** -/
theorem Inv.nonOverlap (hi : Inv s.heap own span) (ho : Owns s.live own) : ∃ lists, NonOverlap s lists := by
  choose lists hlist using hi.chain
  have hmem : ∀ {l b}, b ∈ lists l → own b = some (.free l) := fun {l b} => ((hlist l).2.2 b).1
  have hown : ∀ {b}, b ∈ s.blocks lists → own b ≠ none ∧ s.heap.size b ≤ span b := by
    rintro b (hb | ⟨l, hb⟩)
    · obtain ⟨n, hn⟩ := Option.ne_none_iff_exists'.1 hb
      have hb := ho.live_userPtr.1 hn
      exact ⟨ne_none_of_eq hb, hi.size b (ne_none_of_eq hb) (by simp [hb])⟩
    · exact ⟨ne_none_of_eq (hmem hb), hi.size_of_free (hmem hb)⟩
  refine ⟨lists, fun l => (hlist l).1, fun l => (hlist l).2.1, ?_, ?_, ?_, ?_, ?_⟩
  · intro l l' hll b hb hb'
    have h1 := hmem hb
    rw [hmem hb'] at h1
    exact hll (by simpa using h1.symm)
  · intro l b hb
    by_contra hn
    obtain ⟨n, hn⟩ := Option.ne_none_iff_exists'.1 hn
    have h1 := hmem hb
    rw [ho.live_userPtr.1 hn] at h1
    simp at h1
  · intro a ha b hb hab
    have h1 := hi.apart a (hown ha).1 b (hown hb).1 hab
    have h2 := (hown ha).2
    have h3 := (hown hb).2
    exact disjoint_Ico (by omega)
  · intro b hb
    have h1 := hi.low b (hown hb).1
    have h2 := hi.high b (hown hb).1
    have h3 := hi.top
    have h4 := (hown hb).2
    have h5 : s.heap.bottom = s.heap.gHeap + 8192 := rfl
    exact Set.Ico_subset_Ico (by omega) (by omega)
  · intro p n q k hp hq hpq
    obtain ⟨a, rfl, ha⟩ := (ho p n).1 hp
    obtain ⟨b, rfl, hb⟩ := (ho q k).1 hq
    have hab : a ≠ b := by
      rintro rfl
      exact hpq rfl
    have h1 := hi.apart a (ne_none_of_eq ha) b (ne_none_of_eq hb) hab
    have h2 := (hi.usable a n ha).1
    have h3 := (hi.usable b k hb).1
    simp only [userPtr, sizeofMemUsed, memRedZoneSize]
    exact disjoint_Ico (by omega)

theorem Good.nonOverlap (hg : Good s) : ∃ lists, NonOverlap s lists := by
  rcases hg with ⟨own, span, hi, ho⟩ | ⟨-, hhead, hlive⟩
  · exact hi.nonOverlap ho
  · have hno : ∀ b, b ∉ s.blocks fun _ => [] := by
      rintro b (hb | ⟨l, hb⟩)
      · exact hb (hlive _)
      · exact List.not_mem_nil hb
    refine ⟨fun _ => [], hhead, fun _ => List.nodup_nil, ?_, ?_, ?_, ?_, ?_⟩
    · exact fun _ _ _ _ hb => absurd hb List.not_mem_nil
    · exact fun _ _ hb => absurd hb List.not_mem_nil
    · exact fun a ha => absurd ha (hno a)
    · exact fun b hb => absurd hb (hno b)
    · intro p n q k hp
      rw [hlive] at hp
      cases hp

/-! ## One call -/

/-- What was allocated is live. -/
theorem Allocated.owns {r : Heap × Nat} {bytes : Nat} (ho : Owns live own) (ha : Allocated own r bytes) :
    ∃ own' span', Inv r.1 own' span' ∧ Owns (grant live r.2 bytes) own' := by
  obtain ⟨own', span', hi, ⟨hr, hlive⟩ | ⟨mu, hr, hg⟩⟩ := ha
  · refine ⟨own', span', hi, fun p n => ?_⟩
    rw [grant, if_pos hr]
    exact (ho p n).trans (exists_congr fun a => and_congr_right' (hlive a n).symm)
  · refine ⟨own', span', hi, fun p n => ?_⟩
    rw [grant, hr, if_neg (userPtr_ne_zero mu)]
    rcases eq_or_ne p (userPtr mu) with rfl | hp
    · rw [update_self]
      constructor
      · intro h
        exact ⟨mu, rfl, (hg.2 mu n).2 (Or.inl ⟨rfl, (Option.some.inj h).symm⟩)⟩
      · rintro ⟨a, ha, hown⟩
        rw [← userPtr_inj ha] at hown
        rcases (hg.2 mu n).1 hown with ⟨-, rfl⟩ | h
        · rfl
        · exact absurd h (hg.1 n)
    · rw [update_of_ne hp]
      refine (ho p n).trans (exists_congr fun a => and_congr_right fun ha => ?_)
      rw [hg.2 a n, or_iff_right]
      rintro ⟨rfl, -⟩
      exact hp ha

/-- What was freed is not live any more. -/
theorem Freed.owns (ho : Owns live own) (hf : Freed own own' mu) :
    Owns (update live (userPtr mu) none) own' := by
  intro p n
  rcases eq_or_ne p (userPtr mu) with rfl | hp
  · rw [update_self]
    refine iff_of_false (by simp) ?_
    rintro ⟨a, ha, hown⟩
    exact ((hf a n).1 hown).1 (userPtr_inj ha).symm
  · rw [update_of_ne hp]
    refine (ho p n).trans (exists_congr fun a => and_congr_right fun ha => ?_)
    rw [hf a n, and_iff_right]
    rintro rfl
    exact hp ha

/-- `NULL` is not live. -/
theorem Owns.zero (ho : Owns live own) : live 0 = none := by
  by_contra hn
  obtain ⟨a, n, ha, -⟩ := ho.of_ne_none hn
  exact userPtr_ne_zero a ha.symm

/-- **`mem_realloc`, for a pointer and a size that are not zero.**  The new block is given before the
old one is taken back. -/
theorem memRealloc_move {n : Nat} {newSize : UInt64} (hi : Inv h own span) (ho : Owns live own)
    (hmu : own mu = some (.live n)) (hn : newSize ≠ 0) (halloc : AllocOk h newSize.toNat)
    (hfree : ∀ r, reallocCopy h (userPtr mu) newSize = some r → r.2 ≠ 0 → FreeOk r.1 mu) :
    ∃ r, memRealloc h (userPtr mu) newSize = some r ∧ ∃ own' span', Inv r.1 own' span' ∧
      Owns (reallocLive live (userPtr mu) newSize r.2) own' := by
  obtain ⟨r, hr, ha⟩ := memAlloc_spec hi halloc
  have hcopy : ∃ r', reallocCopy h (userPtr mu) newSize = some r' ∧ Allocated own r' newSize.toNat := by
    rw [reallocCopy, hr]
    refine ⟨_, rfl, ?_⟩
    beta_reduce
    split
    · exact ha
    · exact ha.write ‹_› (Nat.min_le_right ..)
  obtain ⟨r', hr', ha'⟩ := hcopy
  rw [memRealloc, if_neg (userPtr_ne_zero mu), if_neg hn, hr', Option.bind_some]
  have hnot : ¬(userPtr mu ≠ 0 ∧ newSize = 0) := fun h => hn h.2
  obtain ⟨own1, span1, hi1, ho1⟩ := ha'.owns ho
  split
  · rename_i h0
    refine ⟨r', rfl, own1, span1, hi1, ?_⟩
    rw [reallocLive, if_neg hnot, if_pos h0]
    rwa [grant, if_pos h0] at ho1
  · rename_i h0
    have hne : r'.2 ≠ userPtr mu := by
      obtain ⟨_, _, _, ⟨hz, -⟩ | ⟨nu, hnu, hg⟩⟩ := ha'
      · exact absurd hz h0
      · intro he
        obtain rfl := userPtr_inj (hnu.symm.trans he)
        exact hg.1 n hmu
    rw [grant, if_neg h0] at ho1
    have hmu1 : own1 mu = some (.live n) := by
      rw [← ho1.live_userPtr, update_of_ne hne.symm]
      exact ho.live_userPtr.2 hmu
    obtain ⟨h', hf, own2, span2, hi2, hfreed⟩ := memFree_spec hi1 hmu1 (hfree r' hr' h0)
    rw [hf]
    refine ⟨_, rfl, own2, span2, hi2, ?_⟩
    rw [reallocLive, if_neg hnot, if_neg h0, Function.update_comm hne.symm]
    exact hfreed.owns ho1

/-- A call on a heap. -/
theorem step_inv (hi : Inv s.heap own span) (ho : Owns s.live own) {c : Call} (hl : Legal s c) (hs : Sound s c) :
    ∃ t, step s c = some t ∧ ∃ own' span', Inv t.heap own' span' ∧ Owns t.live own' := by
  match c with
  | .alloc size =>
    obtain ⟨r, hr, ha⟩ := memAlloc_spec hi hs
    exact ⟨_, by rw [step, hr]; rfl, ha.owns ho⟩
  | .calloc count size =>
    obtain ⟨r, hr, ha⟩ := memCalloc_spec hi hs
    exact ⟨_, by rw [step, hr]; rfl, ha.owns ho⟩
  | .realloc ptr newSize =>
    rw [Sound] at hs
    rcases eq_or_ne ptr 0 with rfl | hp
    · -- `NULL`: an allocation
      rw [if_neg fun h => h.1 rfl] at hs
      obtain ⟨r, hr, ha⟩ := memAlloc_spec hi hs.1
      have hlive : reallocLive s.live 0 newSize r.2 = grant s.live r.2 newSize.toNat := by
        have h0 : update s.live 0 none = s.live := by
          rw [← ho.zero, update_eq_self]
        rw [reallocLive, grant, if_neg fun h => h.1 rfl, h0]
      refine ⟨⟨r.1, reallocLive s.live 0 newSize r.2⟩, ?_, hlive ▸ ha.owns ho⟩
      rw [step, memRealloc, if_pos rfl, hr]
      rfl
    · obtain ⟨mu, n, rfl, hmu⟩ := ho.of_ne_none (hl.resolve_left hp)
      rw [blockOf_userPtr] at hs
      rcases eq_or_ne newSize 0 with rfl | hn
      · rw [if_pos ⟨hp, rfl⟩] at hs
        obtain ⟨h', hf, own', span', hi', hfreed⟩ := memFree_spec hi hmu hs
        refine ⟨⟨h', reallocLive s.live (userPtr mu) 0 0⟩, ?_, own', span', hi', ?_⟩
        · rw [step, memRealloc, if_neg hp, if_pos rfl, hf]
          rfl
        · rw [reallocLive, if_pos ⟨hp, rfl⟩]
          exact hfreed.owns ho
      · rw [if_neg fun h => hn h.2] at hs
        obtain ⟨r, hr, hinv⟩ := memRealloc_move hi ho hmu hn hs.1 (hs.2 hp)
        exact ⟨_, by rw [step, hr]; rfl, hinv⟩
  | .free ptr =>
    rcases eq_or_ne ptr 0 with rfl | hp
    · refine ⟨⟨s.heap, update s.live 0 none⟩, ?_, own, span, hi, ?_⟩
      · rw [step, memFree, if_pos (Or.inl rfl)]
        rfl
      · rw [← ho.zero, update_eq_self]
        exact ho
    · obtain ⟨mu, n, rfl, hmu⟩ := ho.of_ne_none (hl.resolve_left hp)
      obtain ⟨h', hf, own', span', hi', hfreed⟩ := memFree_spec hi hmu
        (blockOf_userPtr mu ▸ hs hp)
      exact ⟨_, by rw [step, hf]; rfl, own', span', hi', hfreed.owns ho⟩
  | .poke ptr offset byte =>
    obtain ⟨mu, n, rfl, hmu, hlt⟩ := ho.of_poke hl
    have hext := (hi.usable mu n hmu).1
    refine ⟨_, rfl, own, span, hi.write (ne_none_of_eq hmu) ?_ ?_, ho⟩ <;>
      simp only [userPtr, sizeofMemUsed, memRedZoneSize] <;> omega

/-- A call when there is no heap does nothing. -/
theorem step_of_no_heap (hz : s.heap.gHeap = 0) (hlive : ∀ p, s.live p = none) {c : Call}
    (hl : Legal s c) : step s c = some s := by
  have hl0 : update s.live 0 none = s.live := by
    rw [← hlive 0, update_eq_self]
  match c with
  | .alloc size => rw [step, memAlloc, if_pos hz]; rfl
  | .calloc count size => rw [step, memCalloc, memAlloc, if_pos hz]; rfl
  | .realloc ptr newSize =>
    obtain rfl : ptr = 0 := hl.resolve_right fun h => h (hlive ptr)
    rw [step, memRealloc, if_pos rfl, memAlloc, if_pos hz]
    show some (Sys.mk s.heap (reallocLive s.live 0 newSize 0)) = some s
    rw [reallocLive, if_neg fun h => h.1 rfl, if_pos rfl]
  | .free ptr =>
    obtain rfl : ptr = 0 := hl.resolve_right fun h => h (hlive ptr)
    rw [step, memFree, if_pos (Or.inl rfl)]
    show some (Sys.mk s.heap (update s.live 0 none)) = some s
    rw [hl0]
  | .poke ptr offset byte =>
    rw [Legal, hlive] at hl
    exact absurd hl (Nat.not_lt_zero _)

/-- **Every call returns and leaves a layout that is right.** -/
theorem step_good (hg : Good s) {c : Call} (hl : Legal s c) (hs : Sound s c) : ∃ t, step s c = some t ∧ Good t := by
  rcases hg with ⟨own, span, hi, ho⟩ | ⟨hz, hhead, hlive⟩
  · obtain ⟨t, ht, hinv⟩ := step_inv hi ho hl hs
    exact ⟨t, ht, Or.inl hinv⟩
  · exact ⟨s, step_of_no_heap hz hlive hl, Or.inr ⟨hz, hhead, hlive⟩⟩

/-! ## Every run -/

/-- `mem_init` makes a heap whose layout is right, or none. -/
theorem start_good (mem : Nat → UInt8) {base totalBytes : Nat} (hbase : base ≠ 0)
    (hspace : base + totalBytes + 2 * memPagSize < 2 ^ 64) : Good (start mem base totalBytes) := by
  have hbytes : w64 ((sizeofHeapCtrl + memPagSize - 1) / memPagSize * memPagSize) = 8192 := by decide
  have hnext : w64 (base + 8192) = base + 8192 :=
    Nat.mod_eq_of_lt (by simp only [memPagSize] at hspace; omega)
  simp only [start, memInit, allocPages, hbytes, hnext]
  split
  · exact Or.inr ⟨rfl, fun l => by cases l <;> rfl, fun _ => rfl⟩
  · rename_i hfit
    refine Or.inl ⟨fun _ => none, fun _ => 0, ?_, fun p n => iff_of_false (by simp) (by simp)⟩
    exact
      { heap := hbase, bottom := Nat.le_refl _, top := Nat.not_lt.1 hfit, total := rfl
        space := by show base + totalBytes < 2 ^ 64; omega
        apart := fun a ha => absurd rfl ha
        low := fun a ha => absurd rfl ha
        high := fun a ha => absurd rfl ha
        room := fun a ha => absurd rfl ha
        size := fun a ha => absurd rfl ha
        usable := by simp
        chain := fun l => ⟨[], by cases l <;> rfl, List.nodup_nil, by simp⟩
        bucket := by simp }

/-- Such a run leaves the heap in order. -/
theorem good_of_run {mem : Nat → UInt8} {base totalBytes : Nat} (hbase : base ≠ 0)
    (hspace : base + totalBytes + 2 * memPagSize < 2 ^ 64) {calls : List Call}
    (hrun : Run (guarded (fun s c => Legal s c ∧ Sound s c) fun s c t => step s c = some t)
      (start mem base totalBytes) calls s) : Good s := by
  refine hrun.invariant Good (fun s c t hst hg => ?_) (start_good mem hbase hspace)
  obtain ⟨t', ht', hg'⟩ := step_good hg hst.1.1 hst.1.2
  cases ht'.symm.trans hst.2
  exact hg'

/-- **No two blocks ever overlap**, in every run in which only live pointers are freed and reallocated,
nothing overflows, and every block that `mem_free` takes for the free block behind is on the list for
its size; and every further call of this kind returns. -/
theorem blocks_disjoint (mem : Nat → UInt8) {base totalBytes : Nat} (hbase : base ≠ 0)
    (hspace : base + totalBytes + 2 * memPagSize < 2 ^ 64) {calls : List Call}
    (hrun : Run (guarded (fun s c => Legal s c ∧ Sound s c) fun s c t => step s c = some t)
      (start mem base totalBytes) calls s) :
    (∃ lists, NonOverlap s lists) ∧ ∀ c, Legal s c → Sound s c → ∃ t, step s c = some t := by
  have hgood := good_of_run hbase hspace hrun
  refine ⟨hgood.nonOverlap, fun c hl hs => ?_⟩
  obtain ⟨t, ht, -⟩ := step_good hgood hl hs
  exact ⟨t, ht⟩

/-- A block is taken, and the remainder behind it is large, so that it is found when the block is freed. -/
theorem take_600 : Sound (start (fun _ => 0) 0x400000 16384) (.alloc 600) ∧
    ∃ s, step (start (fun _ => 0) 0x400000 16384) (.alloc 600) = some s ∧ s.live 0x402020 = some 600 ∧
      s.heap.gHeap = 0x400000 ∧ Legal s (.free 0x402020) ∧ Sound s (.free 0x402020) := by
  have h1 : (step (start (fun _ => 0) 0x400000 16384) (.alloc 600)).any fun s =>
      s.live 0x402020 == some 600 && s.heap.mallocFreeList == 0x402290 && s.heap.next 0x402290 == 0 &&
        behind s.heap 0x402000 == 0x402290 && s.heap.size 0x402290 == 3440 && s.heap.gHeap == 0x400000 := by decide
  obtain ⟨s, hs, hfacts⟩ := (Option.any_eq_true _ _).1 h1
  simp only [Bool.and_eq_true, beq_iff_eq] at hfacts
  obtain ⟨⟨⟨⟨⟨hlive, hhead⟩, hnext⟩, hbehind⟩, hsize⟩, hheap⟩ := hfacts
  refine ⟨⟨by decide, fun _ => by decide⟩, s, hs, hlive, hheap, Or.inr ?_, fun _ _ => ?_⟩
  · rw [hlive]
    exact Option.some_ne_none _
  · show ∃ xs, IsList s.heap.next 0 (s.heap.head (listFor (s.heap.size (behind s.heap 0x402000)))) xs ∧
      behind s.heap 0x402000 ∈ xs
    rw [hbehind, hsize]
    exact ⟨[0x402290], ⟨hhead, by decide, hnext⟩, List.mem_singleton_self _⟩

theorem blocks_disjoint_of_large_remainder :
    ∃ s, Run (guarded (fun s c => Legal s c ∧ Sound s c) fun s c t => step s c = some t)
        (start (fun _ => 0) 0x400000 16384) [.alloc 600, .free 0x402020] s ∧
      ∃ lists, NonOverlap s lists := by
  obtain ⟨hsound1, s, hs, -, -, hlegal, hsound⟩ := take_600
  have hrun : Run (guarded (fun s c => Legal s c ∧ Sound s c) fun s c t => step s c = some t)
      (start (fun _ => 0) 0x400000 16384) [.alloc 600] s := .single ⟨⟨trivial, hsound1⟩, hs⟩
  obtain ⟨t, ht⟩ := (blocks_disjoint _ (by decide) (by decide) hrun).2 _ hlegal hsound
  have hrun' := hrun.append (.single ⟨⟨hlegal, hsound⟩, ht⟩)
  exact ⟨t, hrun', (blocks_disjoint _ (by decide) (by decide) hrun').1⟩

/-- **A small remainder is lost.**  Of a page, 3648 bytes are used and 448 split off, to
`malloc_free_list`; when the block is freed, the remainder is not found in bucket 448 and stays on the
list, inside the free block it has been joined to. -/
theorem split_then_free_overlaps :
    ∃ s, Run (guarded Legal fun s c t => step s c = some t) (start (fun _ => 0) 0x400000 16384)
        [.alloc 3600, .free 0x402020] s ∧ ¬∃ lists, NonOverlap s lists := by
  have h₁ : (replay Legal step (start (fun _ => 0) 0x400000 16384) [.alloc 3600, .free 0x402020]).any
      fun s => s.heap.mallocFreeList == 0x402000 && s.heap.next 0x402000 == 0x402E40 &&
        s.heap.next 0x402E40 == 0 && s.heap.size 0x402000 == 4096 &&
        s.heap.size 0x402E40 == 448 := by decide
  obtain ⟨s, hs, hfacts⟩ := (Option.any_eq_true _ _).1 h₁
  simp only [Bool.and_eq_true, beq_iff_eq] at hfacts
  obtain ⟨⟨⟨⟨hhead, hnext⟩, hend⟩, hsize⟩, hsize'⟩ := hfacts
  refine ⟨s, run_of_replay hs, ?_⟩
  rintro ⟨lists, hno⟩
  have hlist : IsList s.heap.next 0 (s.heap.head .mallocFreeList) [0x402000, 0x402E40] :=
    ⟨hhead, by decide, hnext, by decide, hend⟩
  have heq := (hno.isList .mallocFreeList).unique hlist
  have hd := hno.disjoint 0x402000 (Or.inr ⟨.mallocFreeList, by simp [heq]⟩) 0x402E40
    (Or.inr ⟨.mallocFreeList, by simp [heq]⟩) (by decide)
  rw [Heap.bytes, Heap.bytes, hsize, hsize', Set.Ico_disjoint_Ico] at hd
  exact absurd hd (by decide)

end WuBuOS.Memory
