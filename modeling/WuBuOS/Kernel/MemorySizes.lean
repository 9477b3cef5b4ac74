import Mathlib.Data.UInt
import WuBuOS.Kernel.MemoryRuns

/-!
# How large the blocks are that users get

A block has a header and two red zones, and what is between these belongs to the user.  Where they are, the size in
the header says, which has 32 bits.  A request is honoured, or refused, if and only if it is far enough from `2 ^ 64`
for the sum with the header and the red zones, and if a free block is large enough, or the pages for it are less
than 4 GiB; or else there is no room (`request_honoured_iff`).
-/

namespace WuBuOS.Memory

open Bytes Linked Runs

variable {h : Heap} {own : Nat → Option Place} {span : Nat → Nat} {mu total : Nat} {s : Sys}

/-- The bytes between the red zones of the block at a user's pointer. -/
def userBytes (h : Heap) (ptr : Nat) : Nat := h.size (blockOf ptr) - sizeofMemUsed - 2 * memRedZoneSize

/-- **A request is honoured**: what is returned is `NULL`, or has at least so many bytes for the user. -/
def Honoured (r : Heap × Nat) (bytes : Nat) : Prop := r.2 = 0 ∨ bytes ≤ userBytes r.1 r.2

instance (r : Heap × Nat) (bytes : Nat) : Decidable (Honoured r bytes) :=
  inferInstanceAs (Decidable (r.2 = 0 ∨ bytes ≤ userBytes r.1 r.2))

/-- A free block is large enough: one of just this size in a bucket, or one on the free list. -/
def Listed (h : Heap) (total : Nat) : Prop :=
  total < memHeapHashSize ∧ h.heapHash total ≠ 0 ∨
    ∃ xs, IsList h.next 0 h.mallocFreeList xs ∧ ∃ b ∈ xs, total ≤ h.size b

/-- The bytes of fresh pages, as `alloc_pages` computes them. -/
def freshBytes (total : Nat) : Nat := w64 (w64 (total + memPagSize - 1) / memPagSize * memPagSize)

/-- There is no heap, or there is neither a free block that is large enough nor the pages for one. -/
def Exhausted (h : Heap) (total : Nat) : Prop :=
  h.gHeap = 0 ∨ ¬Listed h total ∧ h.gHeapEnd < w64 (h.gNextPage + freshBytes total)

/-- **The request fits**: its block has a size below `2 ^ 64`, and is a free block, or pages of less than 4 GiB.  Or
there is no room for it. -/
def RequestFits (h : Heap) (bytes : Nat) : Prop :=
  Exhausted h (allocTotal bytes) ∨
    bytes + 63 < 2 ^ 64 ∧ (Listed h (allocTotal bytes) ∨ pageBytes (allocTotal bytes) < 2 ^ 32)

/-- The product, if it does not wrap; or what it wraps to is refused for lack of room. -/
def ProductFits (h : Heap) (count size : UInt64) : Prop :=
  Exhausted h (allocTotal (count * size).toNat) ∨
    count.toNat * size.toNat < 2 ^ 64 ∧ RequestFits h (count.toNat * size.toNat)

/-! ## The block that is found -/

/-- The list part of `mem_alloc` always ends; it finds a block that is large enough if there is one. -/
theorem findBlock_size (hi : Inv h own span) (total : Nat) : ∃ r, findBlock h total = some r ∧
      (r = (h, 0) ∧ ¬Listed h total ∨ r.2 ≠ 0 ∧ total ≤ r.1.size r.2 ∧ Listed h total) := by
  rw [findBlock]
  split
  · rename_i hb
    obtain ⟨hu, hi'⟩ := hi.take_head (l := .bucket total) hb.2
    refine ⟨_, rfl, Or.inr ⟨hb.2, ?_, Or.inl hb⟩⟩
    rw [size_setHead]
    exact (hi.bucket total _ hu).ge
  · rename_i hb
    obtain ⟨xs, hxs, -, hmem⟩ := hi.chain .mallocFreeList
    obtain ⟨r, hr, hcase⟩ := hi.search_take .mallocFreeList fun b => total ≤ h.size b
    rw [show h.mallocFreeList = h.head .mallocFreeList from rfl, hr]
    rcases hcase with ⟨rfl, hno⟩ | ⟨prev, x, rfl, hx, hfit, hi', hsize⟩
    · refine ⟨_, rfl, Or.inl ⟨rfl, ?_⟩⟩
      rintro (hb' | ⟨ys, hys, b, hbys, hfit⟩)
      · exact hb hb'
      · obtain rfl := hys.unique hxs
        exact of_decide_eq_false (hno b ((hmem b).1 hbys)) hfit
    · have hfit : total ≤ h.size x := by simpa using hfit
      have hx' := ne_none_of_eq hx
      refine ⟨_, rfl, Or.inr ⟨(hi.bounds hx').1, ?_, Or.inr ⟨xs, hxs, x, (hmem x).2 hx, hfit⟩⟩⟩
      exact hfit.trans (hsize x hx').ge

/-- A block that is large enough is trimmed to the size that is needed. -/
theorem size_trimBlock (hsize : total ≤ h.size mu) : (trimBlock h mu total).size mu = total := by
  have hlt : h.size mu < 2 ^ 32 := get_lt ..
  rw [trimBlock]
  split
  · rw [size_setSize]
    exact Nat.mod_eq_of_lt (by omega)
  · omega

/-- A block whose size does not fit its header is left as it is. -/
theorem size_trimBlock_of_le (hsize : h.size mu ≤ total) : (trimBlock h mu total).size mu = h.size mu := by
  rw [trimBlock, if_neg (Nat.not_lt.2 hsize)]

theorem size_setUsedSize (h : Heap) (v a : Nat) : Heap.size { h with usedSize := v } a = h.size a := rfl

theorem size_useBlock {n : Nat} (hn : (trimBlock (h.setSig mu memUsedSignature) mu total).size mu = n)
    (hok : n = 0 ∨ 64 ≤ n) : (useBlock h mu total).size mu = n := by
  rw [← hn] at hok
  rw [useBlock, size_setUsedSize, size_writeCanaries hok, hn]

/-! ## Allocation -/

theorem userBytes_userPtr (h : Heap) (mu : Nat) : userBytes h (userPtr mu) = h.size mu - 48 := by
  rw [userBytes, blockOf_userPtr, sizeofMemUsed, memRedZoneSize]
  omega

theorem freshBlock_none (h : Heap) (hend : h.gHeapEnd < w64 (h.gNextPage + freshBytes total)) :
    freshBlock h total = (h, 0) := by
  have hpages : allocPages h (w64 (total + memPagSize - 1) / memPagSize) = (h, 0) := if_pos hend
  rw [freshBlock, hpages]
  exact if_pos rfl

theorem freshBlock_some (h : Heap) (h0 : h.gNextPage ≠ 0) (hend : ¬h.gHeapEnd < w64 (h.gNextPage + freshBytes total)) :
    freshBlock h total = (({ h with gNextPage := w64 (h.gNextPage + freshBytes total) } : Heap).setSize h.gNextPage
      (freshBytes total), h.gNextPage) := by
  have hpages : allocPages h (w64 (total + memPagSize - 1) / memPagSize) =
      ({ h with gNextPage := w64 (h.gNextPage + freshBytes total) }, h.gNextPage) := if_neg hend
  rw [freshBlock, hpages]
  exact if_neg h0

/-- The size of fresh pages is right if it is less than 4 GiB; if not, it is less than the request. -/
theorem freshBytes_size (ht : 64 ≤ total) (hlt : total < 2 ^ 64) :
    (pageBytes total < 2 ^ 32 → freshBytes total % 2 ^ 32 = pageBytes total ∧ total ≤ pageBytes total) ∧
      (¬pageBytes total < 2 ^ 32 → 64 < total ∧ freshBytes total % 2 ^ 32 + 63 < total ∧
        (freshBytes total % 2 ^ 32 = 0 ∨ 64 ≤ freshBytes total % 2 ^ 32)) := by
  simp only [freshBytes, pageBytes, w64, memPagSize]
  refine ⟨fun h => ?_, fun h => ?_⟩
  · omega
  · omega

theorem allocTotal_le (bytes : Nat) : allocTotal bytes ≤ bytes + 64 := by
  rw [allocTotal]
  split
  · subst_vars
    decide
  · simp only [w64, sizeofMemUsed, memRedZoneSize]
    omega

theorem allocTotal_lt (bytes : Nat) : allocTotal bytes < 2 ^ 64 := by
  rw [allocTotal, w64, w64]
  omega

/-- The block that `mem_alloc` uses: one of the lists, or fresh pages. -/
structure Found (h h' : Heap) (mu total : Nat) : Prop where
  listed : Listed h total → total ≤ h'.size mu
  fresh : ¬Listed h total → h'.size mu = freshBytes total % 2 ^ 32

/-- **`mem_alloc` returns `NULL` if there is no room**, and the user's pointer of a block otherwise. -/
theorem memAlloc_result (hi : Inv h own span) (size : UInt64) :
    ∃ r, memAlloc h size = some r ∧ (Exhausted h (allocTotal size.toNat) ∧ r.2 = 0 ∨
      ¬Exhausted h (allocTotal size.toNat) ∧ ∃ h' mu, Found h h' mu (allocTotal size.toNat) ∧
        r = (useBlock h' mu (allocTotal size.toNat), userPtr mu)) := by
  have hz := hi.heap
  obtain ⟨r, hr, hcase⟩ := findBlock_size hi (allocTotal size.toNat)
  rw [memAlloc, if_neg hz]
  dsimp only
  rw [hr]
  refine ⟨_, rfl, ?_⟩
  beta_reduce
  rcases hcase with ⟨rfl, hlisted⟩ | ⟨h0, hle, hlisted⟩
  · rw [if_pos rfl]
    by_cases hend : h.gHeapEnd < w64 (h.gNextPage + freshBytes (allocTotal size.toNat))
    · rw [freshBlock_none h hend, if_pos rfl]
      exact Or.inl ⟨Or.inr ⟨hlisted, hend⟩, rfl⟩
    · have hnext : h.gNextPage ≠ 0 := by
        have h1 := hi.bottom
        have h2 : h.bottom = h.gHeap + 8192 := rfl
        omega
      rw [freshBlock_some h hnext hend, if_neg hnext]
      refine Or.inr ⟨fun hx => hend (hx.resolve_left hz).2, _, _, ⟨fun hl => absurd hl hlisted, fun _ => ?_⟩, rfl⟩
      exact size_setSize _ _
  · rw [if_neg h0, if_neg h0]
    exact Or.inr ⟨fun hx => (hx.resolve_left hz).1 hlisted, _, _, ⟨fun _ => hle, fun hn => absurd hlisted hn⟩, rfl⟩

/-- A block that fits is trimmed to the size that is needed; one that does not, the header has too small a size
for. -/
theorem Found.size {h' : Heap} (hf : Found h h' mu total) (ht : 64 ≤ total) (hlt : total < 2 ^ 64) :
    (Listed h total ∨ pageBytes total < 2 ^ 32 → (useBlock h' mu total).size mu = total) ∧
      (¬(Listed h total ∨ pageBytes total < 2 ^ 32) → 64 < total ∧ (useBlock h' mu total).size mu + 63 < total) := by
  have hsig : (h'.setSig mu memUsedSignature).size mu = h'.size mu := size_setSig _ _ (Or.inl rfl)
  obtain ⟨hsmall, hbig⟩ := freshBytes_size ht hlt
  refine ⟨fun hfit => size_useBlock (size_trimBlock ?_) (Or.inr ht), fun hnot => ?_⟩
  · rw [hsig]
    by_cases hl : Listed h total
    · exact hf.listed hl
    · obtain ⟨heq, hle⟩ := hsmall (hfit.resolve_left hl)
      rw [hf.fresh hl, heq]
      exact hle
  · obtain ⟨hl, hpages⟩ := not_or.1 hnot
    obtain ⟨hmore, hless, hok⟩ := hbig hpages
    rw [← hf.fresh hl] at hless hok
    rw [size_useBlock ((size_trimBlock_of_le ?_).trans hsig) hok]
    · exact ⟨hmore, hless⟩
    · rw [hsig]
      omega

theorem honoured_iff {h' : Heap} {bytes : Nat} : Honoured (h', userPtr mu) bytes ↔ bytes ≤ h'.size mu - 48 := by
  rw [Honoured, userBytes_userPtr]
  exact or_iff_right (userPtr_ne_zero mu)

/-- No block has 4 GiB for the user. -/
theorem not_honoured {h' : Heap} {bytes : Nat} (hbytes : 2 ^ 32 ≤ bytes) : ¬Honoured (h', userPtr mu) bytes := by
  have hlt : h'.size mu < 2 ^ 32 := get_lt ..
  rw [honoured_iff]
  omega

/-- **When a request is honoured or refused**: if and only if it fits. -/
theorem memAlloc_honoured (hi : Inv h own span) (size : UInt64) :
    ∃ r, memAlloc h size = some r ∧ (Honoured r size.toNat ↔ RequestFits h size.toNat) := by
  obtain ⟨r, hr, hcase⟩ := memAlloc_result hi size
  refine ⟨r, hr, ?_⟩
  rcases hcase with ⟨hx, h0⟩ | ⟨hx, h', mu, hf, rfl⟩
  · exact iff_of_true (Or.inl h0) (Or.inl hx)
  · rw [RequestFits, or_iff_right hx]
    by_cases hbytes : size.toNat + 63 < 2 ^ 64
    · obtain ⟨ht, hs⟩ := allocTotal_spec hbytes
      have hle := allocTotal_le size.toNat
      obtain ⟨hfit, hnot⟩ := hf.size ht (allocTotal_lt size.toNat)
      rw [and_iff_right hbytes, honoured_iff]
      by_cases hp : Listed h (allocTotal size.toNat) ∨ pageBytes (allocTotal size.toNat) < 2 ^ 32
      · rw [hfit hp]
        exact iff_of_true (by omega) hp
      · have hless := hnot hp
        exact iff_of_false (by omega) hp
    · exact iff_of_false (not_honoured (by omega)) fun hh => hbytes hh.1

theorem size_fill {n : Nat} (h : Heap) (mu : Nat) :
    Heap.size { h with mem := fill h.mem (userPtr mu) n 0 } mu = h.size mu := by
  have hptr : userPtr mu = mu + 16 + 16 := rfl
  refine get_congr fun y _ hy => ?_
  exact write_outside (m := h.mem) (a := userPtr mu) (n := n) (f := fun _ => 0) (Or.inl (by omega))

theorem memCalloc_honoured (hi : Inv h own span) (count size : UInt64) : ∃ r, memCalloc h count size = some r ∧
      (Honoured r (count.toNat * size.toNat) ↔ ProductFits h count size) := by
  have hmul : (count * size).toNat = count.toNat * size.toNat % 2 ^ 64 := UInt64.toNat_mul ..
  obtain ⟨r, hr, hiff⟩ := memAlloc_honoured hi (count * size)
  obtain ⟨r', hr', hcase⟩ := memAlloc_result hi (count * size)
  cases hr'.symm.trans hr
  rw [memCalloc, hr]
  refine ⟨_, rfl, ?_⟩
  beta_reduce
  rw [ProductFits]
  rcases hcase with ⟨hx, h0⟩ | ⟨hx, h', mu, -, rfl⟩
  · rw [if_pos h0]
    exact iff_of_true (Or.inl h0) (Or.inl hx)
  · rw [if_neg (userPtr_ne_zero mu), or_iff_right hx]
    by_cases hprod : count.toNat * size.toNat < 2 ^ 64
    · rw [Nat.mod_eq_of_lt hprod] at hmul
      rw [hmul] at hiff ⊢
      rw [and_iff_right hprod, ← hiff, honoured_iff, honoured_iff, size_fill]
    · exact iff_of_false (not_honoured (by omega)) fun hh => hprod hh.1

/-- **Which requests are honoured or refused**: in every run that leaves the heap in order, those that fit, and no
others. -/
theorem request_honoured_iff (mem : Nat → UInt8) {base totalBytes : Nat} (hbase : base ≠ 0)
    (hspace : base + totalBytes + 2 * memPagSize < 2 ^ 64) {calls : List Call}
    (hrun : Run (guarded (fun s c => Legal s c ∧ Sound s c) fun s c t => step s c = some t)
      (start mem base totalBytes) calls s) :
    (∀ size, ∃ r, memAlloc s.heap size = some r ∧ (Honoured r size.toNat ↔ RequestFits s.heap size.toNat)) ∧
      ∀ count size, ∃ r, memCalloc s.heap count size = some r ∧
        (Honoured r (count.toNat * size.toNat) ↔ ProductFits s.heap count size) := by
  rcases good_of_run hbase hspace hrun with ⟨own, span, hi, -⟩ | ⟨hz, -, -⟩
  · exact ⟨memAlloc_honoured hi, memCalloc_honoured hi⟩
  · -- there is no heap, and every request is refused
    have hnull : ∀ size, memAlloc s.heap size = some (s.heap, 0) := fun size => by rw [memAlloc, if_pos hz]
    refine ⟨fun size => ⟨_, hnull size, iff_of_true (Or.inl rfl) (Or.inl (Or.inl hz))⟩, fun count size => ?_⟩
    refine ⟨(s.heap, 0), ?_, iff_of_true (Or.inl rfl) (Or.inl (Or.inl hz))⟩
    rw [memCalloc, hnull]
    rfl

/-- Behind a block of 600 bytes, a request for 100 more. -/
theorem request_honoured_iff_second : ∃ s, step (start (fun _ => 0) 0x400000 16384) (.alloc 600) = some s ∧
      ∃ r, memAlloc s.heap 100 = some r ∧ (Honoured r 100 ↔ RequestFits s.heap 100) := by
  have h₁ : (step (start (fun _ => 0) 0x400000 16384) (.alloc 600)).isSome := by decide
  obtain ⟨s, hs⟩ := Option.isSome_iff_exists.1 h₁
  have hsound : Sound (start (fun _ => 0) 0x400000 16384) (.alloc 600) := ⟨by decide, fun _ => by decide⟩
  have hrun : Run (guarded (fun s c => Legal s c ∧ Sound s c) fun s c t => step s c = some t)
      (start (fun _ => 0) 0x400000 16384) [.alloc 600] s := .single ⟨⟨trivial, hsound⟩, hs⟩
  exact ⟨s, hs, (request_honoured_iff _ (by decide) (by decide) hrun).1 100⟩

set_option maxRecDepth 4000 in
/-- **The sums wrap**: the largest request gets a block of 48 bytes, all of them for the header and the red zones; and
so does a request for `2 ^ 64` bytes in `2 ^ 32` parts, which is one for no bytes. -/
theorem wrapped_not_honoured :
    (∃ r, memAlloc (start (fun _ => 0) 0x400000 16384).heap (2 ^ 64 - 1) = some r ∧ r.2 = 0x402020 ∧
      ¬Honoured r (2 ^ 64 - 1)) ∧
    ∃ r, memCalloc (start (fun _ => 0) 0x400000 16384).heap (2 ^ 32) (2 ^ 32) = some r ∧ r.2 = 0x402020 ∧
      ¬Honoured r (2 ^ 32 * 2 ^ 32) := by
  have h₁ : (memAlloc (start (fun _ => 0) 0x400000 16384).heap (2 ^ 64 - 1)).any fun r =>
      r.2 == 0x402020 && decide (¬Honoured r (2 ^ 64 - 1)) := by decide
  have h₂ : (memCalloc (start (fun _ => 0) 0x400000 16384).heap (2 ^ 32) (2 ^ 32)).any fun r =>
      r.2 == 0x402020 && decide (¬Honoured r (2 ^ 32 * 2 ^ 32)) := by decide
  obtain ⟨r, hr, hbad⟩ := (Option.any_eq_true _ _).1 h₁
  obtain ⟨r', hr', hbad'⟩ := (Option.any_eq_true _ _).1 h₂
  rw [Bool.and_eq_true, beq_iff_eq, decide_eq_true_iff] at hbad hbad'
  exact ⟨⟨r, hr, hbad⟩, ⟨r', hr', hbad'⟩⟩

end WuBuOS.Memory
