import WuBuOS.Kernel.MemoryRuns

/-!
# Free blocks that meet

`mem_free` joins a block with the free block behind it, and with no other.  So there are never two free blocks next
to each other, as long as no block is freed that has one in front of it (`coalesced`); if there is one, the two stay
apart for good (`front_then_back_adjacent`).

A free block is one on the lists, and `Tidy` is what the heap has to have besides its layout for the free block
behind to be found: the blocks on the lists have the signature for it, and none lies beyond the end that `mem_free`
computes.  All that is done to the heap leaves fewer free blocks (`Less`), but for `Heap.push`.
-/

namespace WuBuOS.Memory

open Bytes Linked Runs
open Function (update update_of_ne update_self)

variable {h h' h'' : Heap} {own own' : Nat → Option Place} {span span' : Nat → Nat} {a b x mu total : Nat} {s t : Sys}

/-- The block is on a list. -/
def FreeAt (h : Heap) (b : Nat) : Prop := ∃ l xs, IsList h.next 0 (h.head l) xs ∧ b ∈ xs

/-- No free block ends where another one begins. -/
def Coalesced (h : Heap) : Prop := ∀ a b, FreeAt h a → FreeAt h b → a ≠ b → a + h.size a ≠ b

/-- No free block ends where this one begins. -/
def ClearFront (h : Heap) (mu : Nat) : Prop := ∀ a, FreeAt h a → a + h.size a ≠ mu

/-- No free block begins where this one ends. -/
def ClearBehind (h : Heap) (mu : Nat) : Prop := ∀ b, FreeAt h b → mu + h.size mu ≠ b

/-- What does not change while there is a heap. -/
def Heap.limits (h : Heap) : Nat × Nat × Nat := (h.gHeap, h.gHeapEnd, h.maxSize)

/-- **The free block behind can be found**, and has been. -/
structure Tidy (h : Heap) : Prop where
  sig : ∀ b, FreeAt h b → h.sig b = memUnusedSignature
  reach : h.gHeapEnd ≤ freeHeapEnd h
  coalesced : Coalesced h

/-- There is no free block that there was not before. -/
structure Less (h h' : Heap) : Prop where
  limits : h'.limits = h.limits
  keep : ∀ b, FreeAt h' b → FreeAt h b ∧ h'.size b = h.size b ∧ h'.sig b = h.sig b

theorem Inv.freeAt (hi : Inv h own span) : FreeAt h b ↔ ∃ l, own b = some (.free l) := by
  constructor
  · rintro ⟨l, xs, hxs, hb⟩
    exact ⟨l, ((hi.list hxs).2 b).1 hb⟩
  · rintro ⟨l, hb⟩
    obtain ⟨xs, hxs, -, hmem⟩ := hi.chain l
    exact ⟨l, xs, hxs, (hmem b).2 hb⟩

theorem Inv.owned (hi : Inv h own span) (hb : FreeAt h b) : own b ≠ none := by
  obtain ⟨l, hb⟩ := hi.freeAt.1 hb
  exact ne_none_of_eq hb

/-- A block that is held is on no list. -/
theorem Inv.ne_of_held (hi : Inv h own span) (hx : own x = some .held) (hb : FreeAt h b) : b ≠ x := by
  rintro rfl
  obtain ⟨l, hb⟩ := hi.freeAt.1 hb
  rw [hx] at hb
  cases hb

theorem Less.refl (h : Heap) : Less h h := ⟨rfl, fun _ hb => ⟨hb, rfl, rfl⟩⟩

theorem Less.trans (h1 : Less h h') (h2 : Less h' h'') : Less h h'' := by
  refine ⟨h2.limits.trans h1.limits, fun b hb => ?_⟩
  obtain ⟨hb', hsize, hsig⟩ := h2.keep b hb
  obtain ⟨hb'', hsize', hsig'⟩ := h1.keep b hb'
  exact ⟨hb'', hsize.trans hsize', hsig.trans hsig'⟩

theorem reach_congr (hl : h'.limits = h.limits) (hr : h.gHeapEnd ≤ freeHeapEnd h) : h'.gHeapEnd ≤ freeHeapEnd h' := by
  simp only [Heap.limits, Prod.mk.injEq] at hl
  rwa [freeHeapEnd, hl.1, hl.2.1, hl.2.2]

/-- **Fewer free blocks are tidy.** -/
theorem Tidy.less (ht : Tidy h) (hless : Less h h') : Tidy h' where
  sig b hb := by
    obtain ⟨hb', -, hsig⟩ := hless.keep b hb
    exact hsig.trans (ht.sig b hb')
  reach := reach_congr hless.limits ht.reach
  coalesced a b ha hb hab := by
    obtain ⟨ha', hsize, -⟩ := hless.keep a ha
    rw [hsize]
    exact ht.coalesced a b ha' (hless.keep b hb).1 hab

theorem ClearFront.less (hc : ClearFront h mu) (hless : Less h h') : ClearFront h' mu := by
  intro a ha
  obtain ⟨ha', hsize, -⟩ := hless.keep a ha
  rw [hsize]
  exact hc a ha'

theorem ClearBehind.less (hc : ClearBehind h mu) (hless : Less h h') (hsize : h'.size mu = h.size mu) :
    ClearBehind h' mu := by
  intro b hb
  rw [hsize]
  exact hc b (hless.keep b hb).1

/-! ## Steps -/

/-- The header of a block is as before. -/
def SameHeader (h h' : Heap) (b : Nat) : Prop := ∀ y, b ≤ y → y < b + 16 → h'.mem y = h.mem y

theorem SameHeader.size (hs : SameHeader h h' b) : h'.size b = h.size b :=
  get_congr fun y h1 h2 => hs y (by omega) (by omega)

theorem SameHeader.sig (hs : SameHeader h h' b) : h'.sig b = h.sig b :=
  get_congr fun y h1 h2 => hs y (by omega) (by omega)

/-- **Memory changes, but not in the header of a free block.** -/
theorem Less.of_header (hi : Inv h own span) (hi' : Inv h' own span) (hl : h'.limits = h.limits)
    (hs : ∀ b l, own b = some (.free l) → SameHeader h h' b) : Less h h' := by
  refine ⟨hl, fun b hb => ?_⟩
  obtain ⟨l, hown⟩ := hi'.freeAt.1 hb
  exact ⟨hi.freeAt.2 ⟨l, hown⟩, (hs b l hown).size, (hs b l hown).sig⟩

/-- Memory changes in the header of a block that is held. -/
theorem Less.writeHeader {f : Nat → UInt8} {n : Nat} (hi : Inv h own span) (hx : own x = some .held) (ha : x ≤ a)
    (hn : a + n ≤ x + 16) : Less h { h with mem := write h.mem a n f } := by
  refine .of_header hi (hi.writeHeader hx ha hn) rfl fun b l hb y h1 h2 => write_outside ?_
  have hbx := hi.ne_of_held hx (hi.freeAt.2 ⟨l, hb⟩)
  have := hi.sep (ne_none_of_eq hb) (ne_none_of_eq hx) hbx
  unfold Far at this
  omega

theorem Less.setSig (hi : Inv h own span) (hx : own x = some .held) (v : Nat) : Less h (h.setSig x v) :=
  .writeHeader hi hx (Nat.le_refl x) (by omega)

theorem Less.setSize (hi : Inv h own span) (hx : own x = some .held) (v : Nat) : Less h (h.setSize x v) :=
  .writeHeader hi hx (by omega) (by omega)

theorem Less.setNext (hi : Inv h own span) (hx : own x = some .held) (v : Nat) : Less h (h.setNext x v) :=
  .writeHeader hi hx (by omega) (by omega)

/-- Memory changes in a block, behind its header. -/
theorem Less.write {f : Nat → UInt8} {n : Nat} (hi : Inv h own span) (hx : own x ≠ none) (ha : x + 16 ≤ a)
    (hn : a + n ≤ x + span x) : Less h { h with mem := Bytes.write h.mem a n f } := by
  refine .of_header hi (hi.write hx ha hn) rfl fun b l hb y h1 h2 => write_outside ?_
  rcases eq_or_ne b x with rfl | hbx
  · omega
  · have := hi.apart b (ne_none_of_eq hb) x hx hbx
    omega

/-- The lists and the memory are the same. -/
theorem Less.of_lists (hm : h'.mem = h.mem) (hhead : h'.head = h.head) (hl : h'.limits = h.limits) : Less h h' := by
  have hnext : h'.next = h.next := by
    funext b
    rw [Heap.next, Heap.next, hm]
  refine ⟨hl, fun b hb => ?_⟩
  rw [FreeAt, hnext, hhead] at hb
  exact ⟨hb, by rw [Heap.size, Heap.size, hm], by rw [Heap.sig, Heap.sig, hm]⟩

theorem Less.setUsedSize (h : Heap) (v : Nat) : Less h { h with usedSize := v } :=
  .of_lists rfl (funext fun l => by cases l <;> rfl) rfl

theorem limits_setHead (h : Heap) (l : FreeList) (v : Nat) : (h.setHead l v).limits = h.limits := by
  cases l <;> rfl

theorem sig_setHead (h : Heap) (l : FreeList) (v : Nat) : (h.setHead l v).sig b = h.sig b := by
  cases l <;> rfl

theorem sig_setSize (h : Heap) (v : Nat) (hab : a = b ∨ Far a b) : (h.setSize b v).sig a = h.sig a := by
  unfold Far at hab
  exact get_put_outside (by omega)

theorem sig_setNext (h : Heap) (v : Nat) (hab : a = b ∨ Far a b) : (h.setNext b v).sig a = h.sig a := by
  unfold Far at hab
  exact get_put_outside (by omega)

variable {l : FreeList}

/-- Taking a block off a list leaves the headers, but for a link. -/
theorem relink_fields {prev v : Nat} (hi : Inv h own span) (hprev : prev = 0 ∨ own prev = some (.free l)) :
    (h.relink l prev v).limits = h.limits ∧ ∀ b, own b ≠ none → (h.relink l prev v).sig b = h.sig b := by
  rw [Heap.relink]
  split
  · exact ⟨limits_setHead h l v, fun b _ => sig_setHead h l v⟩
  · rename_i h0
    have hprev := ne_none_of_eq (hprev.resolve_left h0)
    exact ⟨rfl, fun b hb => sig_setNext h v (hi.eq_or_far hb hprev)⟩

/-- A block has been taken off a list. -/
structure Taken (own : Nat → Option Place) (span : Nat → Nat) (h h' : Heap) (x : Nat) : Prop where
  inv : Inv h' (update own x (some .held)) span
  less : Less h h'
  listed : FreeAt h x
  off : ¬FreeAt h' x
  fields : ∀ b, own b ≠ none → h'.size b = h.size b ∧ h'.sig b = h.sig b

/-- **A block is taken off a list.** -/
theorem Inv.taken {l1 l2 : List Nat} (hi : Inv h own span) (hl : IsList h.next 0 (h.head l) (l1 ++ x :: l2)) :
    Taken own span h (h.relink l (l1.getLastD 0) (h.next x)) x := by
  have hprev := hi.prev_mem hl
  obtain ⟨-, hsize, -⟩ := hi.relink_frame (v := h.next x) hprev
  obtain ⟨hlimits, hsig⟩ := relink_fields (v := h.next x) hi hprev
  have hi' := hi.take hl
  have hne : ∀ b, FreeAt (h.relink l (l1.getLastD 0) (h.next x)) b → b ≠ x := fun b hb =>
    hi'.ne_of_held (update_self ..) hb
  refine ⟨hi', ⟨hlimits, fun b hb => ?_⟩, ⟨l, _, hl, by simp⟩, fun hx => hne x hx rfl, fun b hb =>
    ⟨hsize b hb, hsig b hb⟩⟩
  obtain ⟨l', hown⟩ := hi'.freeAt.1 hb
  rw [update_of_ne (hne b hb)] at hown
  exact ⟨hi.freeAt.2 ⟨l', hown⟩, hsize b (ne_none_of_eq hown), hsig b (ne_none_of_eq hown)⟩

/-- What the search of a list finds is taken off it. -/
theorem Inv.search_taken {r : Option (Nat × Nat)} {hit : Nat → Bool} (hi : Inv h own span)
    (hr : search h.next 0 hit h.gHeapTotal 0 (h.head l) = some r) :
    r = none ∧ (∀ x, own x = some (.free l) → hit x = false) ∨
      ∃ prev x, r = some (prev, x) ∧ hit x = true ∧ Taken own span h (h.relink l prev (h.next x)) x := by
  obtain ⟨xs, hxs, -, hmem⟩ := hi.chain l
  rcases search_spec hxs hr with ⟨rfl, hno⟩ | ⟨l1, x, l2, rfl, hx, rfl⟩
  · exact Or.inl ⟨rfl, fun x hx => hno x ((hmem x).2 hx)⟩
  · exact Or.inr ⟨_, x, rfl, hx, hi.taken hxs⟩

/-- There is nothing free on either side of a block that was on a list. -/
theorem Taken.clear (hk : Taken own span h h' x) (hx : own x ≠ none) (ht : Tidy h) :
    ClearFront h' x ∧ ClearBehind h' x := by
  refine ⟨fun a ha => ?_, fun b hb => ?_⟩
  · obtain ⟨ha', hsize, -⟩ := hk.less.keep a ha
    rw [hsize]
    refine ht.coalesced a x ha' hk.listed ?_
    rintro rfl
    exact hk.off ha
  · rw [(hk.fields x hx).1]
    refine ht.coalesced x b hk.listed (hk.less.keep b hb).1 ?_
    rintro rfl
    exact hk.off hb

/-- **A block is put on the front of a list.** -/
theorem Tidy.push (ht : Tidy h) (hi : Inv h own span) (hx : own x = some .held)
    (hfits : Fits (h.size x) (span x) (.free l)) (hsig : h.sig x = memUnusedSignature) (hfront : ClearFront h x)
    (hbehind : ClearBehind h x) : Tidy (h.push l x) := by
  have hx' := ne_none_of_eq hx
  have hfields : ∀ b, own b ≠ none → (h.push l x).size b = h.size b ∧ (h.push l x).sig b = h.sig b := by
    intro b hb
    rw [Heap.push, size_setHead, sig_setHead]
    exact ⟨size_setNext h _ (hi.eq_or_far hb hx'), sig_setNext h _ (hi.eq_or_far hb hx')⟩
  have hmem : ∀ b, FreeAt (h.push l x) b → b = x ∨ FreeAt h b := by
    intro b hb
    obtain ⟨l', hb'⟩ := (hi.link hx hfits).freeAt.1 hb
    rcases eq_or_ne b x with rfl | hbx
    · exact Or.inl rfl
    · rw [update_of_ne hbx] at hb'
      exact Or.inr (hi.freeAt.2 ⟨l', hb'⟩)
  refine ⟨fun b hb => ?_, reach_congr (limits_setHead _ l x) ht.reach, fun a b ha hb hab => ?_⟩
  · rcases hmem b hb with hbx | hb'
    · rw [hbx]
      exact (hfields x hx').2.trans hsig
    · exact (hfields b (hi.owned hb')).2.trans (ht.sig b hb')
  · rcases hmem a ha with hax | ha'
    · rw [hax] at hab ⊢
      rw [(hfields x hx').1]
      exact hbehind b ((hmem b hb).resolve_left hab.symm)
    · rw [(hfields a (hi.owned ha')).1]
      rcases hmem b hb with hbx | hb'
      · rw [hbx]
        exact hfront a ha'
      · exact ht.coalesced a b ha' hb' hab

/-! ## Allocation -/

/-- A block in hand that nothing free lies behind. -/
structure Ready (h : Heap) (mu : Nat) : Prop where
  tidy : Tidy h
  behind : ClearBehind h mu

theorem Ready.less (hr : Ready h mu) (hless : Less h h') (hsize : h'.size mu = h.size mu) : Ready h' mu :=
  ⟨hr.tidy.less hless, hr.behind.less hless hsize⟩

/-- The block that is found has nothing free behind it. -/
theorem findBlock_ready {r : Heap × Nat} (hi : Inv h own span) (ht : Tidy h) (hr : findBlock h total = some r) :
    r = (h, 0) ∨ Ready r.1 r.2 := by
  rw [findBlock] at hr
  split at hr
  · rename_i hb
    cases hr
    obtain ⟨xs, hxs, -, -⟩ := hi.chain (.bucket total)
    cases xs with
    | nil => exact absurd hxs hb.2
    | cons x xs =>
      obtain rfl : h.heapHash total = x := hxs.1
      have hk := hi.taken (show IsList h.next 0 (h.head (.bucket total)) ([] ++ h.heapHash total :: xs) from hxs)
      exact Or.inr ⟨ht.less hk.less, (hk.clear (hi.owned hk.listed) ht).2⟩
  · obtain ⟨r', hr', rfl⟩ := Option.map_eq_some_iff.1 hr
    rcases hi.search_taken (l := .mallocFreeList) hr' with ⟨rfl, -⟩ | ⟨prev, x, rfl, -, hk⟩
    · exact Or.inl rfl
    · exact Or.inr ⟨ht.less hk.less, (hk.clear (hi.owned hk.listed) ht).2⟩

/-- Nothing lies behind fresh pages. -/
theorem freshBlock_ready (hi : Inv h own span) (ht : Tidy h) :
    (freshBlock h total).2 = 0 ∨ Ready (freshBlock h total).1 (freshBlock h total).2 := by
  rw [freshBlock, allocPages]
  generalize w64 (w64 (total + memPagSize - 1) / memPagSize * memPagSize) = bytes
  split
  · rw [if_pos rfl]
    exact Or.inl rfl
  · split
    · exact Or.inl ‹_›
    · have hlow : ∀ b, own b ≠ none → b + 32 ≤ h.gNextPage := fun b hb =>
        (Nat.add_le_add_left (hi.room b hb) b).trans (hi.high b hb)
      have hout : ∀ b, own b ≠ none → SameHeader h (h.setSize h.gNextPage bytes) b := by
        intro b hb y _ h2
        have := hlow b hb
        show put h.mem (h.gNextPage + 4) 4 bytes y = h.mem y
        rw [put, write_outside (by omega)]
      have hsize : Less h (h.setSize h.gNextPage bytes) :=
        .of_header hi (hi.of_mem fun b hb _ => hout b hb) rfl fun b _ hb => hout b (ne_none_of_eq hb)
      have hnext : Less (h.setSize h.gNextPage bytes)
          { h.setSize h.gNextPage bytes with gNextPage := w64 (h.gNextPage + bytes) } :=
        .of_lists rfl (funext fun l => by cases l <;> rfl) rfl
      have hless := hsize.trans hnext
      refine Or.inr ⟨ht.less hless, fun b hb => ?_⟩
      have := hlow b (hi.owned (hless.keep b hb).1)
      omega

/-- **The rest that is split off lies between a block in use and one that is not free.** -/
theorem splitBlock_tidy (hu : Usable h own span mu total) (hr : Ready h mu) (ht : 64 ≤ total)
    (hsplit : total + 32 < h.size mu) : Tidy (splitBlock h mu total) := by
  have hmu := ne_none_of_eq hu.held
  have hsize := hu.size
  have hlt : h.size mu < 2 ^ 32 := get_lt ..
  have hi1 := hu.inv.split hu.held (w := total) (by omega) (by omega)
  have hrem := update_self (mu + total) (some Place.held) own
  have hi2 := hi1.setSig hrem memUnusedSignature
  have hi3 := hi2.setSize hrem (h.size mu - total)
  have hless := (Less.setSig hi1 hrem memUnusedSignature).trans
    ((Less.setSize hi2 hrem (h.size mu - total)).trans (.setNext hi3 hrem 0))
  have hsize' : (((h.setSig (mu + total) memUnusedSignature).setSize (mu + total) (h.size mu - total)).setNext
      (mu + total) 0).size (mu + total) = h.size mu - total := by
    rw [size_setNext _ _ (Or.inl rfl), size_setSize]
    exact Nat.mod_eq_of_lt (by omega)
  refine (hr.tidy.less hless).push (hi3.setNext hrem 0) hrem ?_ ?_ (fun a ha hend => ?_) fun b hb => ?_
  · show _ ≤ _
    rw [hsize', update_self]
    exact Nat.sub_le_sub_right hsize total
  · rw [sig_setNext _ _ (Or.inl rfl), sig_setSize _ _ (Or.inl rfl)]
    exact get_put h.mem (mu + total) 4 memUnusedSignature
  · -- the block is longer than what is left of it, so no other block ends there
    obtain ⟨ha', hsa, -⟩ := hless.keep a ha
    rw [hsa] at hend
    have h1 := hu.inv.apart a (hu.inv.owned ha') mu hmu (hu.inv.ne_of_held hu.held ha')
    have h2 : h.size a ≤ span a := by
      obtain ⟨l, hl⟩ := hu.inv.freeAt.1 ha'
      exact hu.inv.size_of_free hl
    omega
  · rw [hsize', show mu + total + (h.size mu - total) = mu + h.size mu by omega]
    exact hr.behind b (hless.keep b hb).1

theorem trimBlock_tidy (hu : Usable h own span mu total) (hr : Ready h mu) (ht : 64 ≤ total) :
    Tidy (trimBlock h mu total) := by
  have hlt : h.size mu < 2 ^ 32 := get_lt ..
  rw [trimBlock]
  split
  · have hw : w64 (total + sizeofMemUsed + 16) = total + 32 :=
      Nat.mod_eq_of_lt (by simp only [sizeofMemUsed]; omega)
    rw [hw]
    split
    · rename_i hsplit
      obtain ⟨own', span', hi', hheld, -⟩ := splitBlock_spec hu ht hsplit
      exact (splitBlock_tidy hu hr ht hsplit).less (.setSize hi' hheld total)
    · exact hr.tidy.less (.setSize hu.inv hu.held total)
  · exact hr.tidy

theorem Usable.less_writeCanaries (hu : Usable h own span mu total) (ht : 64 ≤ total) :
    Less h (writeCanaries h mu) := by
  have hlimits : (writeCanaries h mu).limits = h.limits := by rw [writeCanaries, Heap.limits, Heap.limits]
  exact .of_header hu.inv (writeCanaries_spec hu ht).inv hlimits fun _ _ hb _ h1 h2 =>
    hu.header_writeCanaries ht (ne_none_of_eq hb) h1 h2

theorem useBlock_tidy (hu : Usable h own span mu total) (hr : Ready h mu) (ht : 64 ≤ total) :
    Tidy (useBlock h mu total) := by
  obtain ⟨hsize, hu1⟩ := hu.marked
  obtain ⟨own', span', hu2, -⟩ := trimBlock_spec hu1 ht
  have htidy := trimBlock_tidy hu1 (hr.less (.setSig hu.inv hu.held _) hsize) ht
  rw [useBlock]
  exact (htidy.less (hu2.less_writeCanaries ht)).less (.setUsedSize _ _)

/-- **`mem_alloc` leaves no free blocks next to each other.** -/
theorem memAlloc_tidy {size : UInt64} {r : Heap × Nat} (hi : Inv h own span) (ht : Tidy h)
    (hok : AllocOk h size.toNat) (hr : memAlloc h size = some r) : Tidy r.1 := by
  obtain ⟨h64, -⟩ := allocTotal_spec hok.1
  obtain ⟨r', hr', hcase⟩ := findBlock_spec hi h64
  have hready := findBlock_ready hi ht hr'
  rw [memAlloc, if_neg hi.heap] at hr
  dsimp only at hr
  rw [hr'] at hr
  cases hr
  beta_reduce
  rcases hcase with rfl | ⟨own', hu, -⟩
  · rw [if_pos rfl]
    rcases freshBlock_spec hi h64 (hok.2 hr') with hf | ⟨own', span', hu, h0, -⟩
    · rw [hf, if_pos rfl]
      exact ht
    · rw [if_neg h0]
      exact useBlock_tidy hu ((freshBlock_ready hi ht).resolve_left h0) h64
  · have h0 := (hu.inv.bounds (ne_none_of_eq hu.held)).1
    rw [if_neg h0, if_neg h0]
    refine useBlock_tidy hu (hready.resolve_left ?_) h64
    rintro rfl
    exact h0 rfl

/-! ## Freeing -/

/-- **Joining with the block behind leaves nothing free behind the block.** -/
theorem coalesce_tidy (hi : Inv h own span) (hmu : own mu = some .held) (hsize : h.size mu ≤ span mu)
    (hfree : freeBehind h mu = true → behind h mu = mu ∨
      own (behind h mu) = some (.free (listFor (h.size (behind h mu))))) (ht : Tidy h)
    (hc : coalesce h mu = some h') : Less h h' ∧ h'.sig mu = h.sig mu ∧ ClearBehind h' mu := by
  have hmu' := ne_none_of_eq hmu
  have hbehind := hi.behind_eq hmu' hsize
  rw [coalesce] at hc
  split at hc
  · rename_i hf
    have hfree := hfree hf
    rw [hbehind] at hfree hc
    obtain ⟨h1, hu, rfl⟩ := Option.map_eq_some_iff.1 hc
    obtain ⟨r, hr, rfl⟩ := Option.map_eq_some_iff.1 hu
    rcases hi.search_taken hr with ⟨rfl, hno⟩ | ⟨prev, x, rfl, hhit, hk⟩
    · -- a block whose size is zero takes itself for the block behind
      have h0 : h.size mu = 0 := by
        rcases hfree with hz | hz
        · omega
        · exact absurd (hno _ hz) (by simp)
      have hless := Less.setSize hi hmu (h.size mu + h.size (mu + h.size mu))
      refine ⟨hless, sig_setSize _ _ (Or.inl rfl), fun b hb => ?_⟩
      rw [size_setSize, h0, Nat.add_zero, h0]
      exact (hi.ne_of_held hmu (hless.keep b hb).1).symm
    · obtain rfl : x = mu + h.size mu := by simpa using hhit
      have hx := hi.owned hk.listed
      have hne : mu + h.size mu ≠ mu := hi.ne_of_held hmu hk.listed
      have hheld : update own (mu + h.size mu) (some Place.held) mu = some .held := by
        rw [update_of_ne hne.symm, hmu]
      obtain ⟨hsm, hgm⟩ := hk.fields mu hmu'
      obtain ⟨hsx, -⟩ := hk.fields _ hx
      have hless := Less.setSize hk.inv hheld (h.size mu + h.size (mu + h.size mu))
      rw [hsm, hsx]
      refine ⟨hk.less.trans hless, (sig_setSize _ _ (Or.inl rfl)).trans hgm, fun b hb hend => ?_⟩
      obtain ⟨hb1, -, -⟩ := hless.keep b hb
      have hb0 := (hk.less.keep b hb1).1
      have hclear := (hk.clear hx ht).2 b hb1
      rw [hsx] at hclear
      rw [size_setSize] at hend
      -- if the sum does not fit the header, the size leads into the block itself
      have hle : h.size (mu + h.size mu) ≤ span (mu + h.size mu) := by
        obtain ⟨l, hl⟩ := hi.freeAt.1 hk.listed
        exact hi.size_of_free hl
      have h1 := hi.apart b (hi.owned hb0) mu hmu' (hi.ne_of_held hmu hb0)
      have h2 := hi.apart b (hi.owned hb0) _ hx (hk.inv.ne_of_held (update_self ..) hb1)
      have h3 := hi.room b (hi.owned hb0)
      omega
  · rename_i hf
    cases hc
    refine ⟨.refl h, rfl, fun b hb hend => hf ?_⟩
    have hlow : b < h.gHeapEnd := by
      have h1 := hi.high b (hi.owned hb)
      have h2 := hi.room b (hi.owned hb)
      have h3 := hi.top
      omega
    rw [freeBehind, hbehind, hend, ht.sig b hb, Bool.and_eq_true, decide_eq_true_iff]
    exact ⟨hlow.trans_le ht.reach, beq_self_eq_true _⟩

/-- **`mem_free` leaves no free blocks next to each other**, if there was none in front of the block. -/
theorem memFree_tidy {n : Nat} (hi : Inv h own span) (ht : Tidy h) (hmu : own mu = some (.live n))
    (hok : FreeOk h mu) (hfront : ClearFront h mu) (hf : memFree h (userPtr mu) = some h') : Tidy h' := by
  have hsize := hi.size mu (ne_none_of_eq hmu) (by simp [hmu])
  have hheld := update_self mu (some Place.held) own
  rw [memFree, if_neg (not_or.2 ⟨userPtr_ne_zero mu, hi.heap⟩), blockOf_userPtr] at hf
  dsimp only at hf
  split at hf
  · cases hf
    exact ht
  · have hi2 := hi.markUnused hmu
    have hsize2 : (markUnused h mu).size mu ≤ span mu := (size_markUnused (Or.inl rfl)).trans_le hsize
    have hlisted := hok.markUnused hi hmu
    obtain ⟨h3, hc, own', span', hi3, -, hheld', hsize3⟩ := coalesce_spec hi2 hheld hsize2 hlisted
    rw [hc] at hf
    cases hf
    have hless : Less h (markUnused h mu) := by
      have hi1 := (hi.hold hmu).setUsedSize (w64 (h.usedSize + 2 ^ 64 - h.size mu))
      exact (Less.setUsedSize h _).trans ((Less.setSig hi1 hheld _).trans (.setNext (hi1.setSig hheld _) hheld 0))
    obtain ⟨hless3, hsig, hbehind⟩ := coalesce_tidy hi2 hheld hsize2 hlisted (ht.less hless) hc
    have hmark : (markUnused h mu).sig mu = memUnusedSignature := by
      rw [markUnused, sig_setNext _ _ (Or.inl rfl)]
      exact get_put h.mem mu 4 memUnusedSignature
    exact (ht.less (hless.trans hless3)).push hi3 hheld' (fits_listFor hsize3) (hsig.trans hmark)
      (hfront.less (hless.trans hless3)) hbehind

/-! ## Every run -/

/-- Only `mem_alloc` and `mem_free` are called, and memory that was asked for is written; and no free block ends where
a block begins that is freed. -/
def Clear (s : Sys) : Call → Prop
  | .alloc _ => True
  | .calloc _ _ => False
  | .realloc _ _ => False
  | .free ptr => ptr ≠ 0 → ClearFront s.heap (blockOf ptr)
  | .poke _ _ _ => True

/-- **One call leaves the heap tidy.** -/
theorem step_tidy (hi : Inv s.heap own span) (ho : Owns s.live own) (ht : Tidy s.heap) {c : Call} (hl : Legal s c)
    (hs : Sound s c) (hc : Clear s c) (hst : step s c = some t) : Tidy t.heap := by
  match c with
  | .alloc size =>
    obtain ⟨r, hr, rfl⟩ := Option.map_eq_some_iff.1 hst
    exact memAlloc_tidy hi ht hs hr
  | .calloc _ _ => exact hc.elim
  | .realloc _ _ => exact hc.elim
  | .free ptr =>
    obtain ⟨h', hf, rfl⟩ := Option.map_eq_some_iff.1 hst
    rcases eq_or_ne ptr 0 with rfl | hp
    · rw [memFree, if_pos (Or.inl rfl)] at hf
      cases hf
      exact ht
    · obtain ⟨mu, n, rfl, hmu⟩ := ho.of_ne_none (hl.resolve_left hp)
      have hok := hs hp
      have hfront := hc hp
      rw [blockOf_userPtr] at hok hfront
      exact memFree_tidy hi ht hmu hok hfront hf
  | .poke ptr offset byte =>
    cases hst
    obtain ⟨mu, n, rfl, hmu, hlt⟩ := ho.of_poke hl
    have hext := (hi.usable mu n hmu).1
    refine ht.less (.write hi (ne_none_of_eq hmu) ?_ ?_) <;>
      simp only [userPtr, sizeofMemUsed, memRedZoneSize] <;> omega

/-- There are no free blocks if all lists are empty. -/
theorem not_freeAt (hhead : ∀ l, h.head l = 0) (b : Nat) : ¬FreeAt h b := by
  rintro ⟨l, xs, hxs, hb⟩
  rw [hhead l] at hxs
  cases xs with
  | nil => exact List.not_mem_nil hb
  | cons x xs => exact hxs.2.1 hxs.1.symm

/-- `mem_init` makes a heap without free blocks. -/
theorem start_tidy (mem : Nat → UInt8) {base totalBytes : Nat} (hbase : base ≠ 0)
    (hspace : base + totalBytes + 2 * memPagSize < 2 ^ 64) (hheap : (start mem base totalBytes).heap.gHeap ≠ 0) :
    Tidy (start mem base totalBytes).heap := by
  have hbytes : w64 ((sizeofHeapCtrl + memPagSize - 1) / memPagSize * memPagSize) = 8192 := by decide
  simp only [memPagSize] at hspace
  have hnext : w64 (base + 8192) = base + 8192 := Nat.mod_eq_of_lt (by omega)
  by_cases hfit : base + totalBytes < base + 8192
  · simp [start, memInit, allocPages, hbytes, hnext, hfit] at hheap
  · simp only [start, memInit, allocPages, hbytes, hnext, if_neg hfit, if_neg hbase]
    refine ⟨fun b hb => absurd hb (not_freeAt (fun l => ?_) b), ?_, fun a b ha => absurd ha (not_freeAt (fun l => ?_) a)⟩
    · cases l <;> rfl
    · simp only [freeHeapEnd, w64, sizeofHeapCtrl, memPagSize]
      omega
    · cases l <;> rfl

/-- **There are never two free blocks next to each other**, in every run of `mem_alloc` and `mem_free` that leaves the
heap in order, as long as no block is freed that has a free block in front of it. -/
theorem coalesced (mem : Nat → UInt8) {base totalBytes : Nat} (hbase : base ≠ 0)
    (hspace : base + totalBytes + 2 * memPagSize < 2 ^ 64) {calls : List Call}
    (hrun : Run (guarded (fun s c => Legal s c ∧ Sound s c ∧ Clear s c) fun s c t => step s c = some t)
      (start mem base totalBytes) calls s) : Coalesced s.heap := by
  have hinv : Good s ∧ (s.heap.gHeap ≠ 0 → Tidy s.heap) := by
    refine hrun.invariant (fun s => Good s ∧ (s.heap.gHeap ≠ 0 → Tidy s.heap)) (fun s c t hst hg => ?_)
      ⟨start_good mem hbase hspace, start_tidy mem hbase hspace⟩
    obtain ⟨⟨hl, hs, hc⟩, hst⟩ := hst
    obtain ⟨t', ht', hg'⟩ := step_good hg.1 hl hs
    cases ht'.symm.trans hst
    refine ⟨hg', fun hz => ?_⟩
    rcases hg.1 with ⟨own, span, hi, ho⟩ | ⟨hz', -, hlive⟩
    · exact step_tidy hi ho (hg.2 hi.heap) hl hs hc hst
    · cases (step_of_no_heap hz' hlive hl).symm.trans hst
      exact absurd hz' hz
  rcases hinv.1 with ⟨own, span, hi, -⟩ | ⟨-, hhead, -⟩
  · exact (hinv.2 hi.heap).coalesced
  · exact fun a b ha => absurd ha (not_freeAt hhead a)

/-- A block is freed that nothing free is in front of, because it is the first. -/
theorem coalesced_first : ∃ s, Run (guarded (fun s c => Legal s c ∧ Sound s c ∧ Clear s c) fun s c t => step s c = some t)
        (start (fun _ => 0) 0x400000 16384) [.alloc 600, .free 0x402020] s ∧ Coalesced s.heap := by
  obtain ⟨hsound1, s, hs, hlive, hheap, hlegal, hsound⟩ := take_600
  have hgood : Good s := by
    have hstart := @start_good (fun _ => 0) 0x400000 16384 (by decide) (by decide)
    obtain ⟨t, ht, hg⟩ := step_good (c := .alloc 600) hstart trivial hsound1
    cases ht.symm.trans hs
    exact hg
  have hclear : Clear s (.free 0x402020) := by
    intro _ a ha hend
    rcases hgood with ⟨own, span, hi, ho⟩ | ⟨hz, -, -⟩
    · -- there is nothing below the first block
      have hlow := hi.low a (hi.owned ha)
      have hmu : own 0x402000 = some (.live 600) := ho.live_userPtr.1 hlive
      have hbottom : s.heap.bottom = s.heap.gHeap + 8192 := rfl
      have hend : a + s.heap.size a = 0x402000 := hend
      obtain rfl : a = 0x402000 := by omega
      obtain ⟨l, hl⟩ := hi.freeAt.1 ha
      rw [hmu] at hl
      cases hl
    · rw [hheap] at hz
      exact absurd hz (by decide)
  obtain ⟨t, ht, -⟩ := step_good hgood hlegal hsound
  have hrun : Run (guarded (fun s c => Legal s c ∧ Sound s c ∧ Clear s c) fun s c t => step s c = some t)
      (start (fun _ => 0) 0x400000 16384) ([.alloc 600] ++ [.free 0x402020]) t :=
    (Run.single ⟨⟨trivial, hsound1, trivial⟩, hs⟩).append (.single ⟨⟨hlegal, hsound, hclear⟩, ht⟩)
  exact ⟨t, hrun, coalesced _ (by decide) (by decide) hrun⟩

/-- **Freed in this order, the two are not joined**: of two blocks next to each other the front one is freed first, so
there is a free block in front of the other. -/
theorem front_then_back_adjacent :
    ∃ s, Run (guarded Legal fun s c t => step s c = some t) (start (fun _ => 0) 0x400000 16384)
        [.alloc 600, .alloc 600, .free 0x402020, .free 0x4022B0] s ∧ ¬Coalesced s.heap := by
  have h₁ : (replay Legal step (start (fun _ => 0) 0x400000 16384)
      [.alloc 600, .alloc 600, .free 0x402020, .free 0x4022B0]).any fun s =>
      s.heap.mallocFreeList == 0x402290 && s.heap.next 0x402290 == 0x402000 &&
        s.heap.next 0x402000 == 0 && s.heap.size 0x402000 == 0x290 := by decide
  obtain ⟨s, hs, hfacts⟩ := (Option.any_eq_true _ _).1 h₁
  simp only [Bool.and_eq_true, beq_iff_eq] at hfacts
  obtain ⟨⟨⟨hhead, hnext⟩, hend⟩, hsize⟩ := hfacts
  refine ⟨s, run_of_replay hs, fun hc => ?_⟩
  have hlist : IsList s.heap.next 0 (s.heap.head .mallocFreeList) [0x402290, 0x402000] :=
    ⟨hhead, by decide, hnext, by decide, hend⟩
  refine hc 0x402000 0x402290 ⟨_, _, hlist, by simp⟩ ⟨_, _, hlist, by simp⟩ (by decide) ?_
  rw [hsize]

end WuBuOS.Memory
