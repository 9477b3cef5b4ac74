import WuBuOS.Lib.Bitmap

/-!
# The physical page allocator

`kernel/wubu_vmm.c`, the allocator.  It owns the pages from `physBase` to `physEnd`, and keeps three
records of them: a bit for each page, set while the page is in use; the number of clear bits; and a
16-bit count of references.  `vmmInit` sets the bits of the kernel image, the heap, the early
structures and what lies above the RAM that the firmware reports.

The loops of the source that go through the pages of a call do one thing to each page
(`refPage`, `freePage`, `takePage`); what a call does to a page is therefore what it would do if it
were about that page alone (`vmmRef_at`, `vmmFreePages_at`, `vmmAllocPages_spec`).

A page is written as its index in the bitmap.  `vmmInit` is `none` when a write would lie outside
of the bitmap.
-/

namespace WuBuOS.Vmm

/-! ## The data -/

def page : Nat := 4096

/-- `WUBU_VMM_PHYS_BASE`. -/
def physBase : Nat := 0x01000000

/-- `WUBU_VMM_PHYS_END`. -/
def physEnd : Nat := 0x08000000

/-- `WUBU_VMM_BITMAP_BITS`. -/
def bitmapBits : Nat := (physEnd - physBase) / 4096

/-- The globals `g_bitmap`, `g_free_pages` and `g_refs`.  The counts are 16-bit; they are never raised
above `0xFFFF` and never lowered below `0`. -/
structure Allocator where
  bitmap : Nat → BitVec 8
  freePages : UInt64
  refs : Nat → Nat

/-- `wubu_memmap_info_t`. -/
structure MemmapInfo where
  base : UInt64
  len : UInt64
  found : Bool

/-- What `wubu_vmm_init` finds: the linker symbols, and what `wubu_memmap_init` returns and fills
in. -/
structure Boot where
  kernelStart : UInt64
  stackTop : UInt64
  memmapInit : Int
  mm : MemmapInfo

/-- A range of physical addresses, as the initialisation lists them. -/
structure Range where
  base : Nat
  stop : Nat

def bmSet (s : Allocator) (idx : Nat) : Allocator :=
  { s with bitmap := Bitmap.set s.bitmap idx, freePages := s.freePages - 1 }

def bmClear (s : Allocator) (idx : Nat) : Allocator :=
  { s with bitmap := Bitmap.clear s.bitmap idx, freePages := s.freePages + 1 }

def bmTest (s : Allocator) (idx : Nat) : Bool := Bitmap.test s.bitmap idx

/-- `g_refs[idx] = v`. -/
def setRef (s : Allocator) (idx v : Nat) : Allocator :=
  { s with refs := fun i => if i = idx then v else s.refs i }

/-! ## `wubu_vmm_init` -/

/-- The physical address of a linker symbol. -/
def symbolPhys (a : UInt64) : Nat :=
  if 0xffffffff80000000 ≤ a.toNat then a.toNat - 0xffffffff80000000 else a.toNat

def used (b : Boot) : List Range :=
  [⟨symbolPhys b.kernelStart, symbolPhys b.stackTop⟩, ⟨0x200000, 0x500000⟩, ⟨0x400000, 0x4400000⟩,
    ⟨0x90000, 0x99000⟩, ⟨0x70000, 0x78000⟩]

/-- A range of `used`, clipped to the allocator's. -/
def Range.clip (r : Range) : Range := ⟨max r.base physBase, min r.stop physEnd⟩

/-- The part of the allocator's range above the RAM, if the memory map says there is one. -/
def tail (b : Boot) : List Range :=
  let realEnd := (b.mm.base + b.mm.len).toNat
  if 0 < b.memmapInit ∧ b.mm.found = true ∧ realEnd < physEnd then [⟨realEnd, physEnd⟩] else []

/-- The ranges `vmmInit` marks used, in order. -/
def marked (b : Boot) : List Range := (used b).map Range.clip ++ tail b

/-- The loop `for (p = b; p < e; p += PAGE) bm_set(...)`.  The index is computed in 64 bits and cut
to 32. -/
def markFrom (e p : Nat) (s : Allocator) : Option Allocator :=
  if p < e then
    let idx := (p + 2 ^ 64 - physBase) % 2 ^ 64 / page % 2 ^ 32
    if idx < bitmapBits then markFrom e (p + page) (bmSet s idx) else none
  else some s
termination_by e - p
decreasing_by simp only [page]; omega

/-- The globals after the two loops that clear the arrays. -/
def cleared : Allocator where
  bitmap := fun _ => 0
  freePages := UInt64.ofNat bitmapBits
  refs := fun _ => 0

def vmmInit (b : Boot) : Option Allocator :=
  (marked b).foldlM (fun s r => markFrom r.stop r.base s) cleared

/-! ## The calls -/

/-- What `wubu_vmm_alloc_pages` does to a page it has found. -/
def takePage (s : Allocator) (j : Nat) : Allocator :=
  setRef (bmSet s j) j 1

/-- `wubu_vmm_alloc_pages`: the address it returns, `0` for none. -/
def vmmAllocPages (s : Allocator) (n : UInt32) : UInt64 × Allocator :=
  if n = 0 ∨ 64 < n then (0, s)
  else
    match Bitmap.firstFit s.bitmap n.toNat bitmapBits 0 0 0 with
    | some start =>
      (UInt64.ofNat (physBase + start * page), (List.range' start n.toNat).foldl takePage s)
    | none => (0, s)

/-- What `wubu_vmm_ref` does to a page. -/
def refPage (s : Allocator) (idx : Nat) : Allocator :=
  if idx < bitmapBits ∧ bmTest s idx = true ∧ s.refs idx < 0xFFFF then
    setRef s idx (s.refs idx + 1)
  else s

/-- The indices the loops of `wubu_vmm_ref` and `wubu_vmm_free_pages` go through:
`(uint32_t)(off / PAGE) + i`. -/
def indices (phys : UInt64) (n : UInt32) : List Nat :=
  (List.range n.toNat).map fun i => ((phys.toNat - physBase) / page % 2 ^ 32 + i) % 2 ^ 32

/-- The two checks both begin with. -/
def Aligned (phys : UInt64) : Prop := physBase ≤ phys.toNat ∧ (phys.toNat - physBase) % page = 0

instance (phys : UInt64) : Decidable (Aligned phys) := inferInstanceAs (Decidable (_ ∧ _))

def vmmRef (s : Allocator) (phys : UInt64) (n : UInt32) : Allocator :=
  if Aligned phys then (indices phys n).foldl refPage s else s

def vmmRefcount (s : Allocator) (phys : UInt64) : Nat :=
  if Aligned phys then
    let idx := (phys.toNat - physBase) / page % 2 ^ 32
    if bitmapBits ≤ idx then 0 else s.refs idx
  else 0

/-- What `wubu_vmm_free_pages` does to a page. -/
def freePage (s : Allocator) (idx : Nat) : Allocator :=
  if bitmapBits ≤ idx ∨ bmTest s idx = false then s
  else
    let s := if 0 < s.refs idx then setRef s idx (s.refs idx - 1) else s
    if s.refs idx = 0 then bmClear s idx else s

def vmmFreePages (s : Allocator) (phys : UInt64) (n : UInt32) : Allocator :=
  if Aligned phys then (indices phys n).foldl freePage s else s

/-! ## The records agree -/

/-- `g_free_pages` is the number of clear bits. -/
def Allocator.Counted (s : Allocator) : Prop := s.freePages.toNat = Bitmap.zeros s.bitmap bitmapBits

/-- What is recorded of a page: its bit and its count. -/
def look (s : Allocator) (i : Nat) : Bool × Nat := (bmTest s i, s.refs i)

variable {s : Allocator} {b : Boot} {i j : Nat}

@[simp]
theorem bmTest_bmSet (s : Allocator) (i j : Nat) : bmTest (bmSet s i) j = (decide (j = i) || bmTest s j) :=
  Bitmap.test_set ..

@[simp]
theorem bmTest_bmClear (s : Allocator) (i j : Nat) :
    bmTest (bmClear s i) j = (decide (j ≠ i) && bmTest s j) := Bitmap.test_clear ..

theorem Allocator.Counted.bmSet (h : s.Counted) (hi : i < bitmapBits) (hc : bmTest s i = false) :
    (bmSet s i).Counted := by
  have hz := Bitmap.zeros_set hi hc
  have hle : (1 : UInt64) ≤ s.freePages := by
    rw [UInt64.le_iff_toNat_le, h, ← hz]
    exact Nat.le_add_left ..
  show (s.freePages - 1).toNat = _
  rw [UInt64.toNat_sub_of_le _ _ hle, h, ← hz, UInt64.toNat_one, Nat.add_sub_cancel]
  rfl

theorem Allocator.Counted.bmClear (h : s.Counted) (hi : i < bitmapBits) (hc : bmTest s i = true) :
    (bmClear s i).Counted := by
  have hz := Bitmap.zeros_clear hi hc
  have hle := Bitmap.zeros_le (Bitmap.clear s.bitmap i) bitmapBits
  have hb : bitmapBits = 28672 := rfl
  show (s.freePages + 1).toNat = _
  rw [UInt64.toNat_add, h, UInt64.toNat_one, ← hz]
  exact Nat.mod_eq_of_lt (by omega)

/-! ## What the initialisation marks -/

/-- The first page of a range. -/
def Range.first (r : Range) : Nat := (r.base - physBase) / page

/-- The number of pages that the loop marks for a range. -/
def Range.count (r : Range) : Nat := (r.stop - r.base + (page - 1)) / page

/-- The pages that the loop marks for a range. -/
def Range.Has (r : Range) (i : Nat) : Prop := r.first ≤ i ∧ i < r.first + r.count

instance (r : Range) (i : Nat) : Decidable (r.Has i) := inferInstanceAs (Decidable (_ ∧ _))

/-- The page lies in the range with all its bytes. -/
def Range.Inside (r : Range) (i : Nat) : Prop :=
  r.base ≤ physBase + i * page ∧ physBase + (i + 1) * page ≤ r.stop

/-- `vmmInit` marks the page used. -/
def Reserved (b : Boot) (i : Nat) : Prop := ∃ r ∈ marked b, r.Has i

instance (b : Boot) (i : Nat) : Decidable (Reserved b i) :=
  inferInstanceAs (Decidable (∃ r ∈ marked b, r.Has i))

/-- No memory map ends below the allocator's range, and no page is in two of the ranges that are
marked: the kernel image, the heap, and what lies above the RAM. -/
def Boot.Apart (b : Boot) : Prop :=
  (∀ r ∈ tail b, physBase ≤ r.base) ∧ (marked b).Pairwise fun r r' => ∀ i, r.Has i → ¬r'.Has i

/-- **A page inside of a range is among those marked for it.** -/
theorem Range.Inside.has {r : Range} (h : r.Inside i) (hb : physBase ≤ r.base) : r.Has i := by
  obtain ⟨hlo, hhi⟩ := h
  simp only [Range.Has, Range.first, Range.count, page, physBase] at *
  omega

theorem Range.Inside.clip {r : Range} (h : r.Inside i) (hi : i < bitmapBits) : r.clip.Inside i := by
  simp only [Range.Inside, Range.clip, page, physBase, physEnd, bitmapBits] at *
  omega

/-- Marking a range sets the bits of its pages. -/
theorem markFrom_eq (s : Allocator) {p e : Nat} (hp : physBase ≤ p) (he : e ≤ physEnd) : markFrom e p s = some
      ((List.range' (Range.first ⟨p, e⟩) (Range.count ⟨p, e⟩)).foldl bmSet s) := by
  induction p, s using markFrom.induct e with
  | case1 p s hlt idx hidx ih =>
    have hi : (p + 2 ^ 64 - physBase) % 2 ^ 64 / page % 2 ^ 32 = Range.first ⟨p, e⟩ := by
      simp only [Range.first, page, physBase, physEnd] at *
      omega
    have hf : Range.first ⟨p + page, e⟩ = Range.first ⟨p, e⟩ + 1 := by
      simp only [Range.first, page, physBase] at *
      omega
    have hc : Range.count ⟨p, e⟩ = Range.count ⟨p + page, e⟩ + 1 := by
      simp only [Range.count, page] at *
      omega
    rw [markFrom, if_pos hlt]
    rw [if_pos hidx, ih (by omega), hc, List.range'_succ, List.foldl_cons, hf]
    simp only [idx, hi]
  | case2 p s hlt idx hidx =>
    refine absurd ?_ hidx
    simp only [idx, bitmapBits, page, physBase, physEnd] at *
    omega
  | case3 p s hge =>
    have hc : Range.count ⟨p, e⟩ = 0 := by
      simp only [Range.count, page] at *
      omega
    rw [markFrom, if_neg hge, hc]
    rfl

/-- Setting the bits of pages that are clear. -/
theorem foldl_bmSet : ∀ {l : List Nat} {s : Allocator}, s.Counted → l.Nodup →
    (∀ i ∈ l, i < bitmapBits ∧ bmTest s i = false) →
    (l.foldl bmSet s).Counted ∧ (l.foldl bmSet s).refs = s.refs ∧
      ∀ i, bmTest (l.foldl bmSet s) i = true ↔ i ∈ l ∨ bmTest s i = true
  | [], s, hs, _, _ => ⟨hs, rfl, fun i => by simp⟩
  | a :: l, s, hs, hl, hc => by
    obtain ⟨ha, hl⟩ := List.nodup_cons.1 hl
    obtain ⟨hlt, hcl⟩ := hc a List.mem_cons_self
    obtain ⟨hs', hr, ht⟩ := foldl_bmSet (hs.bmSet hlt hcl) hl fun i hi => by
      have hne : i ≠ a := fun h => ha (h ▸ hi)
      obtain ⟨hlt, hcl⟩ := hc i (List.mem_cons_of_mem _ hi)
      exact ⟨hlt, by simp [hne, hcl]⟩
    refine ⟨hs', hr, fun i => ?_⟩
    rw [List.foldl_cons, ht, bmTest_bmSet, List.mem_cons]
    simp only [Bool.or_eq_true, decide_eq_true_eq]
    tauto

theorem Range.has_lt {r : Range} (hs : r.stop ≤ physEnd) (hb : physBase ≤ r.base) (h : r.Has i) : i < bitmapBits := by
  simp only [Range.Has, Range.first, Range.count, bitmapBits, page, physBase, physEnd] at *
  omega

/-- The ranges in turn. -/
theorem foldlM_markFrom : ∀ {l : List Range} {s : Allocator}, (∀ r ∈ l, physBase ≤ r.base ∧ r.stop ≤ physEnd) →
    l.Pairwise (fun r r' => ∀ i, r.Has i → ¬r'.Has i) → s.Counted →
    (∀ r ∈ l, ∀ i, r.Has i → bmTest s i = false) →
    ∃ t, l.foldlM (fun s r => markFrom r.stop r.base s) s = some t ∧ t.Counted ∧ t.refs = s.refs ∧
      ∀ i, bmTest t i = true ↔ (∃ r ∈ l, r.Has i) ∨ bmTest s i = true
  | [], s, _, _, hs, _ => ⟨s, rfl, hs, rfl, fun i => by simp⟩
  | r :: l, s, hr, hp, hs, hc => by
    obtain ⟨hd, hp⟩ := List.pairwise_cons.1 hp
    obtain ⟨hb, he⟩ := hr r List.mem_cons_self
    have hmem : ∀ i, i ∈ List.range' r.first r.count ↔ r.Has i := fun i => by
      rw [List.mem_range'_1]
      rfl
    obtain ⟨hs', hf, ht⟩ := foldl_bmSet hs (List.nodup_range' (s := r.first) (n := r.count))
      fun i hi => ⟨Range.has_lt he hb ((hmem i).1 hi), hc r List.mem_cons_self i ((hmem i).1 hi)⟩
    obtain ⟨t, he', hct, hrt, htt⟩ := foldlM_markFrom (fun r' h => hr r' (List.mem_cons_of_mem _ h)) hp
      hs' fun r' h i hi => by
        refine Bool.eq_false_iff.2 fun hset => ?_
        rcases (ht i).1 hset with hin | hin
        · exact hd r' h i ((hmem i).1 hin) hi
        · exact absurd hin (by simp [hc r' (List.mem_cons_of_mem _ h) i hi])
    refine ⟨t, ?_, hct, hrt.trans hf, fun i => ?_⟩
    · rw [List.foldlM_cons, markFrom_eq s hb he]
      exact he'
    · rw [htt, ht, hmem, List.exists_mem_cons_iff, or_left_comm, or_assoc]

theorem marked_bounds (h : ∀ r ∈ tail b, physBase ≤ r.base) :
    ∀ r ∈ marked b, physBase ≤ r.base ∧ r.stop ≤ physEnd := fun r hr => by
  rcases List.mem_append.1 hr with hr | hr
  · obtain ⟨r, -, rfl⟩ := List.mem_map.1 hr
    exact ⟨le_max_right .., min_le_right ..⟩
  · refine ⟨h r hr, ?_⟩
    simp only [tail] at hr
    split at hr
    · obtain rfl := List.mem_singleton.1 hr
      exact le_rfl
    · cases hr

theorem counted_cleared : cleared.Counted := by
  have hz : Bitmap.zeros cleared.bitmap bitmapBits = bitmapBits := Bitmap.zeros_blank _
  have hb : bitmapBits < 2 ^ 64 := by decide
  exact (UInt64.toNat_ofNat_of_lt' hb).trans hz.symm

theorem bmTest_cleared (i : Nat) : bmTest cleared i = false := BitVec.getLsbD_zero

/-- **The initialisation**: the records agree, no page has references, and the pages in use are
those of the marked ranges. -/
theorem vmmInit_spec (hb : b.Apart) : ∃ s, vmmInit b = some s ∧ s.Counted ∧ (∀ i, s.refs i = 0) ∧
    ∀ i, bmTest s i = true ↔ Reserved b i := by
  obtain ⟨s, he, hc, hr, ht⟩ := foldlM_markFrom (marked_bounds hb.1) hb.2 counted_cleared
    fun _ _ i _ => bmTest_cleared i
  refine ⟨s, he, hc, fun i => congrFun hr i, fun i => ?_⟩
  rw [ht, bmTest_cleared]
  exact or_iff_left Bool.false_ne_true

/-! ## What a call does to a page -/

@[simp]
theorem look_setRef (s : Allocator) (idx v i : Nat) :
    look (setRef s idx v) i = (bmTest s i, if i = idx then v else s.refs i) := rfl

@[simp]
theorem look_bmClear (s : Allocator) (idx i : Nat) :
    look (bmClear s idx) i = (decide (i ≠ idx) && bmTest s i, s.refs i) := by
  rw [look, bmTest_bmClear]
  rfl

/-- Two states record the same of a page. -/
theorem look_eq {s t : Allocator} : look s i = look t i ↔ bmTest s i = bmTest t i ∧ s.refs i = t.refs i := Prod.ext_iff

theorem look_pair {x : Bool} {r : Nat} : look s i = (x, r) ↔ bmTest s i = x ∧ s.refs i = r :=
  Prod.ext_iff

theorem look_refPage (s : Allocator) (idx i : Nat) : look (refPage s idx) i =
    (bmTest s i, if i = idx ∧ idx < bitmapBits ∧ bmTest s idx = true ∧ s.refs idx < 0xFFFF then
      s.refs idx + 1 else s.refs i) := by
  rw [refPage]
  by_cases h : idx < bitmapBits ∧ bmTest s idx = true ∧ s.refs idx < 0xFFFF
  · rw [if_pos h, look_setRef]
    simp only [h, and_true]
  · rw [if_neg h, if_neg fun h' => h h'.2, look]

theorem local_refPage : Bitmap.Local look refPage where
  off s i j hj := by rw [look_refPage, if_neg fun h => hj h.1, look]
  on {s s' i} h := by
    obtain ⟨ht, hr⟩ := look_eq.1 h
    rw [look_refPage, look_refPage, ht, hr]

theorem freePage_skip {idx : Nat} (h : ¬(idx < bitmapBits ∧ bmTest s idx = true)) : freePage s idx = s := by
  refine if_pos ?_
  rcases Nat.lt_or_ge idx bitmapBits with hlt | hge
  · exact .inr (Bool.eq_false_iff.2 fun ht => h ⟨hlt, ht⟩)
  · exact .inl hge

theorem freePage_used {idx : Nat} (hlt : idx < bitmapBits) (ht : bmTest s idx = true) : freePage s idx =
      if 1 < s.refs idx then setRef s idx (s.refs idx - 1) else bmClear (setRef s idx 0) idx := by
  rw [freePage, if_neg (by simp [hlt, ht])]
  rcases Nat.eq_zero_or_pos (s.refs idx) with h0 | hpos
  · have hr : setRef s idx 0 = s := by
      have : (fun i => if i = idx then 0 else s.refs i) = s.refs := by
        funext i
        split
        case isTrue h => rw [h, h0]
        case isFalse => rfl
      rw [setRef, this]
    simp [h0, hr]
  · have hv : (setRef s idx (s.refs idx - 1)).refs idx = s.refs idx - 1 := if_pos rfl
    simp only [hpos, if_true, hv]
    rcases Nat.lt_or_ge 1 (s.refs idx) with h1 | h1
    · rw [if_neg (by omega), if_pos h1]
    · rw [if_pos (by omega), if_neg (by omega), show s.refs idx - 1 = 0 by omega]

/-- A page that is in use is given back: its bit stays if it had a second reference. -/
theorem look_freePage (s : Allocator) (idx i : Nat) : look (freePage s idx) i =
    if i = idx ∧ idx < bitmapBits ∧ bmTest s idx = true then
      (decide (1 < s.refs idx), s.refs idx - 1)
    else look s i := by
  by_cases h : idx < bitmapBits ∧ bmTest s idx = true
  · rw [freePage_used h.1 h.2]
    rcases Nat.lt_or_ge 1 (s.refs idx) with h1 | h1
    · rw [if_pos h1, look_setRef, decide_eq_true h1]
      by_cases hi : i = idx
      · rw [if_pos hi, if_pos ⟨hi, h⟩, hi, h.2]
      · rw [if_neg hi, if_neg fun h' => hi h'.1, look]
    · have hv : s.refs idx - 1 = 0 := by omega
      rw [if_neg (Nat.not_lt.2 h1), look_bmClear, decide_eq_false (Nat.not_lt.2 h1), hv]
      by_cases hi : i = idx
      · rw [if_pos ⟨hi, h⟩]
        exact Prod.ext (by simp [hi]) (if_pos hi)
      · rw [if_neg fun h' => hi h'.1]
        exact Prod.ext (by simp [hi, look, bmTest, setRef]) (if_neg hi)
  · rw [freePage_skip h, if_neg fun h' => h h'.2]

theorem local_freePage : Bitmap.Local look freePage where
  off s i j hj := by rw [look_freePage, if_neg fun h => hj h.1]
  on {s s' i} h := by
    obtain ⟨ht, hr⟩ := look_eq.1 h
    rw [look_freePage, look_freePage, ht, hr, h]

theorem look_takePage (s : Allocator) (j i : Nat) : look (takePage s j) i = if i = j then (true, 1) else look s i := by
  rw [takePage, look_setRef, bmTest_bmSet]
  by_cases hi : i = j <;> simp [hi, look, bmSet]

theorem local_takePage : Bitmap.Local look takePage where
  off s i j hj := by rw [look_takePage, if_neg hj]
  on {s s' i} h := by rw [look_takePage, look_takePage, if_pos rfl, if_pos rfl]

/-- The indices of a call are distinct: there are less than `2 ^ 32` of them. -/
theorem nodup_indices (phys : UInt64) (n : UInt32) : (indices phys n).Nodup := by
  refine List.Nodup.map_on (fun i hi j hj h => ?_) List.nodup_range
  have hn := n.toNat_lt
  rw [List.mem_range] at hi hj
  omega

/-- **`wubu_vmm_ref`, page by page.** -/
theorem vmmRef_at {phys : UInt64} (h : Aligned phys) (s : Allocator) (n : UInt32) (i : Nat) : look (vmmRef s phys n) i =
      if i ∈ indices phys n then look (refPage s i) i else look s i := by
  rw [vmmRef, if_pos h]
  exact Bitmap.look_foldl local_refPage s i (nodup_indices phys n)

/-- **`wubu_vmm_free_pages`, page by page.** -/
theorem vmmFreePages_at {phys : UInt64} (h : Aligned phys) (s : Allocator) (n : UInt32) (i : Nat) :
    look (vmmFreePages s phys n) i = if i ∈ indices phys n then look (freePage s i) i else look s i := by
  rw [vmmFreePages, if_pos h]
  exact Bitmap.look_foldl local_freePage s i (nodup_indices phys n)

/-- **`wubu_vmm_alloc_pages`**: it fails and changes nothing, or it takes `n` pages in a row that were
clear, and they have one reference each. -/
theorem vmmAllocPages_spec (s : Allocator) (n : UInt32) : vmmAllocPages s n = (0, s) ∨
    ∃ start, start + n.toNat ≤ bitmapBits ∧ (∀ i, start ≤ i → i < start + n.toNat → bmTest s i = false) ∧
      (vmmAllocPages s n).1.toNat = physBase + start * page ∧
      (vmmAllocPages s n).2 = (List.range' start n.toNat).foldl takePage s ∧
      ∀ i, look (vmmAllocPages s n).2 i = if start ≤ i ∧ i < start + n.toNat then (true, 1) else look s i := by
  rw [vmmAllocPages]
  split
  case isTrue => exact .inl rfl
  case isFalse =>
    cases hf : Bitmap.firstFit s.bitmap n.toNat bitmapBits 0 0 0 with
    | none => exact .inl rfl
    | some start =>
      obtain ⟨hle, hc⟩ := Bitmap.firstFit_clear hf
      refine .inr ⟨start, hle, hc, UInt64.toNat_ofNat_of_lt' ?_, rfl, fun i => ?_⟩
      · simp only [bitmapBits, physBase, physEnd, page, UInt64.size] at hle ⊢
        omega
      · rw [Bitmap.look_foldl local_takePage s i List.nodup_range']
        simp only [List.mem_range'_1, look_takePage, if_pos]

/-! ## Every call keeps the number of clear bits right -/

theorem counted_setRef {idx v : Nat} (h : s.Counted) : (setRef s idx v).Counted := h

theorem counted_freePage (h : s.Counted) (idx : Nat) : (freePage s idx).Counted := by
  by_cases hu : idx < bitmapBits ∧ bmTest s idx = true
  · rw [freePage_used hu.1 hu.2]
    split
    · exact counted_setRef h
    · exact (counted_setRef h).bmClear hu.1 hu.2
  · rw [freePage_skip hu]
    exact h

theorem counted_refPage (h : s.Counted) (idx : Nat) : (refPage s idx).Counted := by
  rw [refPage]
  split
  · exact counted_setRef h
  · exact h

theorem counted_foldl {f : Allocator → Nat → Allocator} (hf : ∀ {s}, s.Counted → ∀ idx, (f s idx).Counted) :
    ∀ {l : List Nat} {s : Allocator}, s.Counted → (l.foldl f s).Counted
  | [], _, h => h
  | a :: l, s, h => by
    rw [List.foldl_cons]
    exact counted_foldl hf (hf h a)

theorem counted_foldl_takePage : ∀ {l : List Nat} {s : Allocator}, s.Counted → l.Nodup →
    (∀ i ∈ l, i < bitmapBits ∧ bmTest s i = false) → (l.foldl takePage s).Counted
  | [], _, h, _, _ => h
  | a :: l, s, h, hl, hc => by
    obtain ⟨ha, hl⟩ := List.nodup_cons.1 hl
    obtain ⟨hlt, hcl⟩ := hc a List.mem_cons_self
    rw [List.foldl_cons]
    refine counted_foldl_takePage (counted_setRef (h.bmSet hlt hcl)) hl fun i hi => ?_
    obtain ⟨hlt, hcl⟩ := hc i (List.mem_cons_of_mem _ hi)
    have hne : i ≠ a := fun h => ha (h ▸ hi)
    refine ⟨hlt, ?_⟩
    rw [← hcl]
    exact (look_eq.1 (local_takePage.off s hne)).1

theorem counted_alloc (h : s.Counted) (n : UInt32) : (vmmAllocPages s n).2.Counted := by
  rcases vmmAllocPages_spec s n with he | ⟨start, hle, hc, -, he, -⟩
  · rw [he]
    exact h
  · rw [he]
    refine counted_foldl_takePage h List.nodup_range' fun i hi => ?_
    obtain ⟨hlo, hhi⟩ := List.mem_range'_1.1 hi
    exact ⟨by omega, hc i hlo hhi⟩

theorem counted_ref (h : s.Counted) (phys : UInt64) (n : UInt32) : (vmmRef s phys n).Counted := by
  rw [vmmRef]
  split
  · exact counted_foldl counted_refPage h
  · exact h

theorem counted_free (h : s.Counted) (phys : UInt64) (n : UInt32) : (vmmFreePages s phys n).Counted := by
  rw [vmmFreePages]
  split
  · exact counted_foldl counted_freePage h
  · exact h

end WuBuOS.Vmm
