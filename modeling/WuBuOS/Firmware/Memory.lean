import Mathlib.Data.Int.NatAbs
import Mathlib.Data.List.Basic

/-!
# The memory manager of the firmware

`firmware/fw_mem.c`: a table of typed regions, from which pages are carved.  Addresses and counts of pages
are natural numbers, computed with as `uint64_t` (`add64`, `mul64`, `sub64`); a pointer is its address.
The table is the list of its `g_nregions` entries.
-/

namespace WuBuOS.Firmware

/-! ## Constants -/

abbrev efiPageSize : Nat := 4096

abbrev fwMaxRegions : Nat := 256

/-- `FW_PT_BASE`, `FW_LOAD_BASE` and `FW_HEAP_BASE`. -/
abbrev fwPtBase : Nat := 0x00070000
abbrev fwLoadBase : Nat := 0x00200000
abbrev fwHeapBase : Nat := 0x00400000

abbrev efiMemoryWb : Nat := 8

/-- `EFI_MEMORY_TYPE`, stored as `uint32_t`. -/
abbrev MemoryType := BitVec 32

abbrev efiBootServicesData : MemoryType := 4
abbrev efiRuntimeServicesCode : MemoryType := 5
abbrev efiRuntimeServicesData : MemoryType := 6
abbrev efiConventionalMemory : MemoryType := 7
abbrev efiMemoryMappedIo : MemoryType := 11

/-! ## Arithmetic of `uint64_t` -/

def add64 (a b : Nat) : Nat := (a + b) % 2 ^ 64

def mul64 (a b : Nat) : Nat := a * b % 2 ^ 64

def sub64 (a b : Nat) : Nat := (a + (2 ^ 64 - b % 2 ^ 64)) % 2 ^ 64

theorem add64_eq {a b : Nat} (h : a + b < 2 ^ 64) : add64 a b = a + b := Nat.mod_eq_of_lt h

theorem mul64_eq {a b : Nat} (h : a * b < 2 ^ 64) : mul64 a b = a * b := Nat.mod_eq_of_lt h

theorem sub64_eq {a b : Nat} (h : b ≤ a) (ha : a < 2 ^ 64) : sub64 a b = a - b := by
  unfold sub64
  omega

/-! ## The table -/

/-- `fw_region`. -/
structure Region where
  start : Nat
  pages : Nat
  type : MemoryType
  attr : Nat
  deriving DecidableEq

/-- Where the region ends, as the code computes it. -/
def Region.stop (r : Region) : Nat := add64 r.start (mul64 r.pages efiPageSize)

/-- `g_map`, `g_map_key` and `g_ram_top`. -/
structure Mem where
  map : List Region
  mapKey : BitVec 64
  ramTop : Nat

/-- The entry of the table; behind it zeros, where C reads on, past the end of `g_map` if the table is full. -/
def entry (m : List Region) (i : Nat) : Region := m.getD i ⟨0, 0, 0, 0⟩

def regionInsert (m : List Region) (idx start pages : Nat) (type : MemoryType) : List Region :=
  if fwMaxRegions ≤ m.length then m else m.insertIdx idx ⟨start, pages, type, efiMemoryWb⟩

/-- The loop of `region_coalesce` at an entry, with those behind it. -/
def coalesceFrom (r : Region) : List Region → List Region
  | [] => [r]
  | s :: rest =>
    if r.type = s.type ∧ r.stop = s.start then coalesceFrom { r with pages := add64 r.pages s.pages } rest
    else r :: coalesceFrom s rest

def regionCoalesce : List Region → List Region
  | [] => []
  | r :: rest => coalesceFrom r rest

/-- The head split of `region_mark`: the entry is cut at `cs`, and the index goes on to the second part. -/
def headSplit (m : List Region) (i rs cs re : Nat) : List Region × Nat :=
  let type := (entry m i).type
  let m := m.modify i fun r => { r with pages := sub64 cs rs / efiPageSize }
  (regionInsert m (i + 1) cs (sub64 re cs / efiPageSize) type, i + 1)

/-- The tail split: the entry is cut at `ce`. -/
def tailSplit (m : List Region) (i rs ce re : Nat) : List Region :=
  let m := regionInsert m (i + 1) ce (sub64 re ce / efiPageSize) (entry m i).type
  m.modify i fun r => { r with pages := sub64 ce rs / efiPageSize }

/-- The body of the loop behind the head split: the region from `rs` to `re` is cut at `ce`, and what is in
front of it gets the type. -/
def markRest (ce : Nat) (type : MemoryType) (m : List Region) (i rs re : Nat) : List Region × Nat :=
  let m := if ce < re then tailSplit m i rs ce re else m
  (m.modify i fun r => { r with type := type }, i + 1)

/-- The body of the loop of `region_mark`. -/
def markEntry (start stop : Nat) (type : MemoryType) (m : List Region) (i : Nat) : List Region × Nat :=
  let rs := (entry m i).start
  let re := (entry m i).stop
  if stop ≤ rs ∨ re ≤ start then (m, i + 1)
  else
    let cs := if rs < start then start else rs
    let ce := if stop < re then stop else re
    if rs < cs then
      let (m, i) := headSplit m i rs cs re
      markRest ce type m i cs (add64 cs (mul64 (entry m i).pages efiPageSize))
    else markRest ce type m i rs re

/-- The loop of `region_mark`.  The index grows, and the table has at most `FW_MAX_REGIONS` entries, which
is the fuel. -/
def markLoop (start stop : Nat) (type : MemoryType) : Nat → List Region → Nat → List Region
  | 0, m, _ => m
  | fuel + 1, m, i =>
    if i < m.length then
      let (m, i) := markEntry start stop type m i
      markLoop start stop type fuel m i
    else m

def regionMark (st : Mem) (start pages : Nat) (type : MemoryType) : Mem :=
  let stop := add64 start (mul64 pages efiPageSize)
  let m := if pages = 0 then st.map else markLoop start stop type fwMaxRegions st.map 0
  { st with map := regionCoalesce m, mapKey := st.mapKey + 1 }

/-! ## The size of memory -/

/-- What a `uint32_t` of two bytes of the CMOS is. -/
def cmosPair (cmos : BitVec 8 → BitVec 8) (lo hi : BitVec 8) : Nat := (cmos lo).toNat ||| (cmos hi).toNat <<< 8

/-- The registers of the CMOS are given as a function. -/
def detectRamTop (cmos : BitVec 8 → BitVec 8) : Nat :=
  let ext := cmosPair cmos 0x34 0x35
  let top := if ext = 0 then 1024 * 1024 + cmosPair cmos 0x30 0x31 * 1024 else 16 * 1024 * 1024 + ext * 64 * 1024
  let top := if top < 32 * 1024 * 1024 then 128 * 1024 * 1024 else top
  let top := if 0xC0000000 < top then 0xC0000000 else top
  top / efiPageSize * efiPageSize

/-- The regions before the firmware carves out its own. -/
def baseMap (top : Nat) : List Region :=
  let m := regionInsert [] 0 0x00000000 (0xA0000 / efiPageSize) efiConventionalMemory
  let m := regionInsert m m.length 0x000A0000 (0x60000 / efiPageSize) efiMemoryMappedIo
  regionInsert m m.length 0x00100000 (sub64 top 0x00100000 / efiPageSize) efiConventionalMemory

def fwMemInit (cmos : BitVec 8 → BitVec 8) : Mem :=
  let top := detectRamTop cmos
  let st : Mem := ⟨baseMap top, 1, top⟩
  let st := regionMark st 0x00000000 0x10 efiRuntimeServicesData
  let st := regionMark st fwPtBase 6 efiRuntimeServicesData
  let st := regionMark st 0x00090000 0x10 efiBootServicesData
  regionMark st fwLoadBase ((0x00400000 - fwLoadBase) / efiPageSize) efiRuntimeServicesCode

/-! ## Pages -/

/-- The loop of `alloc_from` at an entry: the best address so far, if there is one. -/
def bestFit (lo hi need : Nat) (topDown : Bool) (best : Option Nat) (r : Region) : Option Nat :=
  if r.type ≠ efiConventionalMemory then best
  else
    let rs := if r.start < lo then lo else r.start
    let re := if hi < r.stop then hi else r.stop
    if re ≤ rs ∨ sub64 re rs < need then best
    else
      let cand := if topDown then sub64 re need else rs
      match best with
      | none => some cand
      | some addr => if (if topDown then addr < cand else cand < addr) then some cand else best

/-- The address that is returned comes with the state, 0 for `NULL`. -/
def allocFrom (st : Mem) (lo hi pages : Nat) (type : MemoryType) (topDown : Bool) : Mem × Nat :=
  if pages = 0 then (st, 0)
  else
    match st.map.foldl (bestFit lo hi (mul64 pages efiPageSize) topDown) none with
    | none => (st, 0)
    | some addr => (regionMark st addr pages type, addr)

def fwAllocPages (st : Mem) (pages : Nat) (type : MemoryType) : Mem × Nat :=
  allocFrom st fwHeapBase st.ramTop pages type false

/-- The entry that holds the address. -/
def regionOf (m : List Region) (cursor : Nat) : Option Region :=
  m.find? fun r => r.start ≤ cursor ∧ cursor < r.stop

theorem lt_stop_of_regionOf {m : List Region} {cursor : Nat} {r : Region} (h : regionOf m cursor = some r) :
    cursor < r.stop := by
  have hr := List.find?_some h
  exact (of_decide_eq_true hr).2

/-- The loop of `fw_alloc_pages_at`: every page from the cursor to `stop` is conventional. -/
def allConventional (m : List Region) (cursor stop : Nat) : Bool :=
  if cursor < stop then
    match h : regionOf m cursor with
    | none => false
    | some r => if r.type ≠ efiConventionalMemory then false else
      have := lt_stop_of_regionOf h
      allConventional m r.stop stop
  else true
termination_by stop - cursor

def fwAllocPagesAt (st : Mem) (addr pages : Nat) (type : MemoryType) : Mem × Nat :=
  if addr % efiPageSize ≠ 0 then (st, 0)
  else if allConventional st.map addr (add64 addr (mul64 pages efiPageSize)) then
    (regionMark st addr pages type, addr)
  else (st, 0)

def fwFreePages (st : Mem) (p pages : Nat) : Mem :=
  if p = 0 ∨ pages = 0 then st else regionMark st p pages efiConventionalMemory

/-! ## The pool -/

abbrev poolMagic : Nat := 0x57554255504F4F4C

structure PoolHdr where
  magic : Nat
  pages : Nat
  type : Nat
  pad : Nat

/-- `sizeof(pool_hdr)`. -/
abbrev poolHdrSize : Nat := 32

/-- The pages of a block, with its header. -/
def poolPages (bytes : Nat) : Nat := sub64 (add64 (add64 bytes poolHdrSize) efiPageSize) 1 / efiPageSize

/-- The block that starts behind the header. -/
def poolBlock (res : Mem × Nat) : Mem × Nat := (res.1, if res.2 = 0 then 0 else add64 res.2 poolHdrSize)

def fwPoolAlloc (st : Mem) (bytes : Nat) (type : MemoryType) : Mem × Nat :=
  if bytes = 0 then (st, 0) else poolBlock (fwAllocPages st (poolPages bytes) type)

/-- The header is what the memory in front of the block holds. -/
def fwPoolFree (st : Mem) (p : Nat) (h : PoolHdr) : Mem :=
  if p = 0 ∨ h.magic ≠ poolMagic then st else fwFreePages st (sub64 p poolHdrSize) h.pages

end WuBuOS.Firmware
