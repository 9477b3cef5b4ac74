import WuBuOS.Lib.Bytes
import WuBuOS.Lib.Linked

/-!
# The kernel heap

`kernel/memory.c`.  The heap is a stretch of memory that `alloc_pages` hands out from the bottom and
never takes back.  A block begins with a 16-byte header: a signature, the block's size in 32 bits,
and, while it is free, the link to the next free block.  Free blocks are kept on lists, one for each
size below 512 (`heap_hash`) and one for the rest (`malloc_free_list`); `mem_alloc` takes a block from
a list, or fresh pages, and splits off what it does not need, and `mem_free` joins a block with the
free block behind it.

Headers, red zones and user data share one memory of bytes, because that is where the difficulty is:
`mem_free` decides by the word it finds behind a block whether a free block begins there.  The heap
controller at the bottom of the heap is kept apart as a record; its own bytes, and those of the page
it fills up, belong to no block.

Addresses and sizes are 64-bit; where the code computes with them the model does so modulo `2 ^ 64`,
and a size is stored modulo `2 ^ 32`.  The loops over lists are `Linked.search` with the size of the
heap as fuel, and `none` means that a loop did not end.  Address `0` is `NULL`.
-/

namespace WuBuOS
namespace Memory

open Bytes Linked

/-! ## The data -/

def memPagSize : Nat := 4096

def memHeapHashSize : Nat := 512

def memUsedSignature : Nat := 0xDEADBEEF

def memUnusedSignature : Nat := 0xCAFEBABE

def memRedZoneSize : Nat := 16

def memCanaryFront : Nat := 0xBADCAFE0

def memCanaryBack : Nat := 0xDEADBEE0

/-- `sizeof(CMemUsed)`, which is also the offset of the user area with its red zones. -/
def sizeofMemUsed : Nat := 16

/-- `sizeof(CHeapCtrl)`: eight bytes, 512 pointers, a list node and three words. -/
def sizeofHeapCtrl : Nat := 4144

/-- The globals of `memory.c`, the fields of `CHeapCtrl`, and the memory. -/
structure Heap where
  mem : Nat → UInt8
  gHeap : Nat
  gHeapTotal : Nat
  gNextPage : Nat
  gHeapEnd : Nat
  /-- `hc->heap_hash`. -/
  heapHash : Nat → Nat
  /-- `hc->malloc_free_list.next`. -/
  mallocFreeList : Nat
  usedSize : Nat
  maxSize : Nat

/-- `size_t` arithmetic. -/
def w64 (n : Nat) : Nat := n % 2 ^ 64

namespace Heap

/-- `b->signature`. -/
def sig (h : Heap) (b : Nat) : Nat := get h.mem b 4

/-- `b->size`. -/
def size (h : Heap) (b : Nat) : Nat := get h.mem (b + 4) 4

/-- `b->next`, of a free block. -/
def next (h : Heap) (b : Nat) : Nat := get h.mem (b + 8) 8

/-- `b->signature = v`. -/
def setSig (h : Heap) (b : Nat) (v : Nat) : Heap := { h with mem := put h.mem b 4 v }

/-- `b->size = v`. -/
def setSize (h : Heap) (b : Nat) (v : Nat) : Heap := { h with mem := put h.mem (b + 4) 4 v }

/-- `b->next = v`. -/
def setNext (h : Heap) (b : Nat) (v : Nat) : Heap := { h with mem := put h.mem (b + 8) 8 v }

end Heap

/-- The lists free blocks are on. -/
inductive FreeList
  | bucket (size : Nat)
  | mallocFreeList
  deriving DecidableEq, Repr

/-- The first block of a list. -/
def Heap.head (h : Heap) : FreeList → Nat
  | .bucket i => h.heapHash i
  | .mallocFreeList => h.mallocFreeList

/-- Assign to the head of a list. -/
def Heap.setHead (h : Heap) : FreeList → Nat → Heap
  | .bucket i, v => { h with heapHash := Function.update h.heapHash i v }
  | .mallocFreeList, v => { h with mallocFreeList := v }

/-- Redirect a link: the head of the list, or the `next` of the block before. -/
def Heap.relink (h : Heap) (l : FreeList) (prev v : Nat) : Heap :=
  if prev = 0 then h.setHead l v else h.setNext prev v

/-- Put a block on the front of a list. -/
def Heap.push (h : Heap) (l : FreeList) (b : Nat) : Heap := (h.setNext b (h.head l)).setHead l b

/-- The list for free blocks of a size. -/
def listFor (size : Nat) : FreeList :=
  if size < memHeapHashSize then .bucket size else .mallocFreeList

/-! ## Pages -/

/-- `alloc_pages`, with `0` for `NULL`. -/
def allocPages (h : Heap) (nPages : Nat) : Heap × Nat :=
  let bytes := w64 (nPages * memPagSize)
  if h.gHeapEnd < w64 (h.gNextPage + bytes) then (h, 0)
  else ({ h with gNextPage := w64 (h.gNextPage + bytes) }, h.gNextPage)

/-- `mem_init`, where `base` is the memory it was given and `mem` what is in it.  The controller does
not fit if the pages for it cannot be allocated; there is no heap then. -/
def memInit (mem : Nat → UInt8) (base totalBytes : Nat) : Heap × Int :=
  let h : Heap :=
    { mem := mem, gHeap := 0, gHeapTotal := totalBytes, gNextPage := base,
      gHeapEnd := base + totalBytes, heapHash := fun _ => 0, mallocFreeList := 0, usedSize := 0,
      maxSize := 0 }
  let r := allocPages h ((sizeofHeapCtrl + memPagSize - 1) / memPagSize)
  if r.2 = 0 then (r.1, -1)
  else
    ({ r.1 with
        mem := fill r.1.mem r.2 sizeofHeapCtrl 0
        gHeap := r.2
        maxSize := w64 (totalBytes + 2 ^ 64 - memPagSize) }, 0)

/-! ## Allocation -/

/-- Four words of a red zone. -/
def redZone (m : Nat → UInt8) (a v : Nat) : Nat → UInt8 :=
  put (put (put (put m a 4 v) (a + 4) 4 v) (a + 8) 4 v) (a + 12) 4 v

def writeCanaries (h : Heap) (mu : Nat) : Heap :=
  let start := mu + sizeofMemUsed
  let userBytes := w64 (h.size mu + 2 ^ 64 - sizeofMemUsed - 2 * memRedZoneSize)
  let m := redZone h.mem start memCanaryFront
  { h with mem := redZone m (w64 (start + memRedZoneSize + userBytes)) memCanaryBack }

/-- The size of the block that `mem_alloc` needs for a request. -/
def allocTotal (size : Nat) : Nat :=
  let size := if size = 0 then 1 else size
  let total := w64 (size + sizeofMemUsed + 2 * memRedZoneSize)
  w64 (total + 15) / 16 * 16

/-- The list part of `mem_alloc`: the bucket of exactly this size, then the first block of the free
list that is large enough.  The block is taken off its list; `0` if there is none. -/
def findBlock (h : Heap) (total : Nat) : Option (Heap × Nat) :=
  if total < memHeapHashSize ∧ h.heapHash total ≠ 0 then
    let u := h.heapHash total
    some (h.setHead (.bucket total) (h.next u), u)
  else
    (search h.next 0 (fun b => total ≤ h.size b) h.gHeapTotal 0 h.mallocFreeList).map fun
      | none => (h, 0)
      | some (prev, cur) => (h.relink .mallocFreeList prev (h.next cur), cur)

/-- The page part of `mem_alloc`. -/
def freshBlock (h : Heap) (total : Nat) : Heap × Nat :=
  let nPages := w64 (total + memPagSize - 1) / memPagSize
  let r := allocPages h nPages
  if r.2 = 0 then r else (r.1.setSize r.2 (w64 (nPages * memPagSize)), r.2)

/-- Split off what is behind the first `total` bytes of the block, and put it on the free list. -/
def splitBlock (h : Heap) (mu total : Nat) : Heap :=
  let rem := mu + total
  ((((h.setSig rem memUnusedSignature).setSize rem (h.size mu - total)).setNext rem 0).push
    .mallocFreeList rem)

/-- Trim a block to `total` bytes, splitting it if the rest is worth it. -/
def trimBlock (h : Heap) (mu total : Nat) : Heap :=
  if total < h.size mu then
    (if w64 (total + sizeofMemUsed + 16) < h.size mu then splitBlock h mu total else h).setSize
      mu total
  else h

/-- The part of `mem_alloc` behind the label `found`. -/
def useBlock (h : Heap) (mu total : Nat) : Heap :=
  let h := writeCanaries (trimBlock (h.setSig mu memUsedSignature) mu total) mu
  { h with usedSize := w64 (h.usedSize + h.size mu) }

/-- The user's pointer to a block. -/
def userPtr (mu : Nat) : Nat := mu + sizeofMemUsed + memRedZoneSize

def memAlloc (h : Heap) (size : UInt64) : Option (Heap × Nat) :=
  if h.gHeap = 0 then some (h, 0)
  else
    let total := allocTotal size.toNat
    (findBlock h total).map fun r =>
      let r := if r.2 = 0 then freshBlock r.1 total else r
      if r.2 = 0 then r else (useBlock r.1 r.2 total, userPtr r.2)

def memCalloc (h : Heap) (count size : UInt64) : Option (Heap × Nat) :=
  (memAlloc h (count * size)).map fun r =>
    if r.2 = 0 then r
    else ({ r.1 with mem := fill r.1.mem r.2 (count * size).toNat 0 }, r.2)

/-! ## Freeing -/

/-- The end of the heap as `mem_free` computes it. -/
def freeHeapEnd (h : Heap) : Nat := w64 (h.gHeap + sizeofHeapCtrl + h.maxSize)

/-- Where the block behind `mu` begins. -/
def behind (h : Heap) (mu : Nat) : Nat := w64 (mu + h.size mu)

/-- There is a free block behind `mu`, as far as `mem_free` can tell. -/
def freeBehind (h : Heap) (mu : Nat) : Bool :=
  behind h mu < freeHeapEnd h && h.sig (behind h mu) == memUnusedSignature

/-- Take the block off the list that `mem_free` looks for it on, if it is there. -/
def unlinkBlock (h : Heap) (nu : Nat) : Option Heap :=
  (search h.next 0 (fun c => c == nu) h.gHeapTotal 0 (h.head (listFor (h.size nu)))).map fun
    | none => h
    | some (prev, c) => h.relink (listFor (h.size nu)) prev (h.next c)

/-- Join `mu` with the block behind it. -/
def coalesce (h : Heap) (mu : Nat) : Option Heap :=
  if freeBehind h mu then
    let nu := behind h mu
    (unlinkBlock h nu).map fun h' => h'.setSize mu (h'.size mu + h'.size nu)
  else some h

/-- The block of a user's pointer. -/
def blockOf (ptr : Nat) : Nat := ptr - memRedZoneSize - sizeofMemUsed

/-- What `mem_free` writes to the header first. -/
def markUnused (h : Heap) (mu : Nat) : Heap :=
  let h := { h with usedSize := w64 (h.usedSize + 2 ^ 64 - h.size mu) }
  (h.setSig mu memUnusedSignature).setNext mu 0

/-- `mem_free`.  A block whose signature is wrong is reported and left alone. -/
def memFree (h : Heap) (ptr : Nat) : Option Heap :=
  if ptr = 0 ∨ h.gHeap = 0 then some h
  else
    let mu := blockOf ptr
    if h.sig mu ≠ memUsedSignature then some h
    else (coalesce (markUnused h mu) mu).map fun h => h.push (listFor (h.size mu)) mu

/-- How much `mem_realloc` copies. -/
def copySize (h : Heap) (ptr : Nat) (newSize : UInt64) : Nat :=
  min (w64 (h.size (blockOf ptr) + 2 ^ 64 - sizeofMemUsed - 2 * memRedZoneSize)) newSize.toNat

/-- `mem_realloc`, for a pointer and a size that are not zero, up to the copy. -/
def reallocCopy (h : Heap) (ptr : Nat) (newSize : UInt64) : Option (Heap × Nat) :=
  (memAlloc h newSize).map fun r =>
    if r.2 = 0 then r
    else ({ r.1 with mem := copy r.1.mem r.2 ptr (copySize h ptr newSize) }, r.2)

def memRealloc (h : Heap) (ptr : Nat) (newSize : UInt64) : Option (Heap × Nat) :=
  if ptr = 0 then memAlloc h newSize
  else if newSize = 0 then (memFree h ptr).map fun h => (h, 0)
  else (reallocCopy h ptr newSize).bind fun r =>
    if r.2 = 0 then some r else (memFree r.1 ptr).map fun h => (h, r.2)

end Memory
end WuBuOS
