import WuBuOS.Firmware.MemoryMap
import WuBuOS.Lib.Runs

/-!
# The map through all calls

`fw_alloc_pages` finds room in the map, and `fw_alloc_pages_at` checks it page by page; both then mark the
range.  The check of the second ends at `addr + pages * EFI_PAGE_SIZE`, computed modulo 2^64: where the sum
wraps it is never made, and the call hands out memory that the map does not have (`wrapped_not_granted`).
`map_well_formed` is about all runs without such a call.
-/

namespace WuBuOS.Firmware

open Tiling

/-! ## What is promised -/

/-- The map is well formed, and covers what another one does. -/
structure WellFormed (m₀ m : List Region) : Prop where
  sorted : m.Pairwise fun r s => r.start < s.start
  nonempty : ∀ r ∈ m, 0 < r.pages
  apart : m.Pairwise fun r s => r.limit ≤ s.start
  covers : ∀ x, (∃ r ∈ m, r.start ≤ x ∧ x < r.limit) ↔ ∃ r ∈ m₀, r.start ≤ x ∧ x < r.limit
  merged : m.IsChain fun r s => r.type ≠ s.type

inductive Call where
  | allocPages (pages : Nat) (type : MemoryType)
  | allocPagesAt (addr pages : Nat) (type : MemoryType)
  | freePages (p pages : Nat)

/-- The state after the call, and the address that it returns. -/
def Call.exec (st : Mem) : Call → Mem × Nat
  | .allocPages pages type => fwAllocPages st pages type
  | .allocPagesAt addr pages type => fwAllocPagesAt st addr pages type
  | .freePages p pages => (fwFreePages st p pages, 0)

def Call.next (st : Mem) (call : Call) : Mem := (call.exec st).1

/-- The call keeps to its terms: there is room in the table, the size does not wrap, and what is freed are
pages inside the map. -/
def Allowed (st : Mem) (call : Call) : Prop :=
  st.map.length + 2 ≤ fwMaxRegions ∧
    match call with
    | .allocPages pages type => type ≠ efiConventionalMemory ∧ pages * efiPageSize < 2 ^ 64
    | .allocPagesAt addr pages type =>
      addr < 2 ^ 64 ∧ type ≠ efiConventionalMemory ∧ pages * efiPageSize < 2 ^ 64
    | .freePages p pages => p % efiPageSize = 0 ∧ p + pages * efiPageSize ≤ st.ramTop

/-- The pages were conventional, they have the type now, and all others are what they were. -/
def Carved (m m' : List Region) (addr pages : Nat) (type : MemoryType) : Prop :=
  ∀ x, (addr ≤ x ∧ x < addr + pages * efiPageSize →
      typeAt m x = some efiConventionalMemory ∧ typeAt m' x = some type) ∧
    (¬(addr ≤ x ∧ x < addr + pages * efiPageSize) → typeAt m' x = typeAt m x)

/-- An allocation that succeeds has carved its pages. -/
def Granted (st : Mem) (call : Call) : Prop :=
  match call with
  | .allocPages pages type | .allocPagesAt _ pages type =>
    (call.exec st).2 ≠ 0 → Carved st.map (call.exec st).1.map (call.exec st).2 pages type
  | .freePages .. => True

/-- The end of the range that is asked for is an address. -/
def Call.NoWrap : Call → Prop
  | .allocPagesAt addr pages _ => addr % efiPageSize = 0 → pages ≠ 0 → addr + pages * efiPageSize < 2 ^ 64
  | _ => True

/-! ## The invariant -/

structure MemOk (st : Mem) : Prop where
  whole : Whole st.map st.ramTop
  lower : 0x2000000 ≤ st.ramTop
  upper : st.ramTop ≤ 0xC0000000
  aligned : st.ramTop % efiPageSize = 0

variable {st : Mem} {start pages x addr : Nat} {type : MemoryType}

theorem MemOk.top_lt (h : MemOk st) : st.ramTop < 2 ^ 64 := Nat.lt_of_le_of_lt h.upper (by decide)

/-- **Marking keeps the invariant.** -/
theorem MemOk.mark (h : MemOk st) (hlen : st.map.length + 2 ≤ fwMaxRegions)
    (hrange : pages ≠ 0 → start % efiPageSize = 0 ∧ start + pages * efiPageSize ≤ st.ramTop) :
    MemOk (regionMark st start pages type) :=
  ⟨(regionMark_spec h.whole h.top_lt hlen hrange).1, h.lower, h.upper, h.aligned⟩

theorem detectRamTop_bounds (cmos : BitVec 8 → BitVec 8) : 0x2000000 ≤ detectRamTop cmos ∧
    detectRamTop cmos ≤ 0xC0000000 ∧ detectRamTop cmos % efiPageSize = 0 := by
  unfold detectRamTop
  simp only [efiPageSize]
  split <;> split <;> split <;> omega

theorem baseMap_whole {top : Nat} (hlo : 0x2000000 ≤ top) (hhi : top ≤ 0xC0000000) (ha : top % efiPageSize = 0) :
    Whole (baseMap top) top := by
  have hpages : sub64 top 0x00100000 / efiPageSize = (top - 0x00100000) / efiPageSize := by
    rw [sub64_eq (by omega) (by omega)]
  have hlast : 0x00100000 + (top - 0x00100000) / efiPageSize * efiPageSize = top :=
    pages_mul (by decide) ha (by omega)
  have hmap : baseMap top = [⟨0x00000000, 0xA0, efiConventionalMemory, efiMemoryWb⟩,
      ⟨0x000A0000, 0x60, efiMemoryMappedIo, efiMemoryWb⟩,
      ⟨0x00100000, (top - 0x00100000) / efiPageSize, efiConventionalMemory, efiMemoryWb⟩] := by
    rw [← hpages]
    rfl
  rw [hmap]
  refine ⟨⟨rfl, by decide, rfl, by decide, rfl, ?_, hlast⟩, ?_⟩
  · show 0x00100000 < 0x00100000 + (top - 0x00100000) / efiPageSize * efiPageSize
    omega
  · exact .cons_cons (by decide) (.cons_cons
      (show efiMemoryMappedIo ≠ efiConventionalMemory by decide) (.singleton _))

/-- A range of the firmware's own, all below the heap. -/
theorem MemOk.carve (h : MemOk st) (n start pages : Nat) (type : MemoryType) (hn : st.map.length ≤ n) (hroom : n + 2 ≤ fwMaxRegions)
    (hstart : start % efiPageSize = 0) (hstop : start + pages * efiPageSize ≤ 0x2000000) :
    MemOk (regionMark st start pages type) ∧ (regionMark st start pages type).map.length ≤ n + 2 := by
  have hlen : st.map.length + 2 ≤ fwMaxRegions := Nat.le_trans (Nat.add_le_add_right hn 2) hroom
  have hrange : pages ≠ 0 → start % efiPageSize = 0 ∧ start + pages * efiPageSize ≤ st.ramTop :=
    fun _ => ⟨hstart, Nat.le_trans hstop h.lower⟩
  exact ⟨h.mark hlen hrange, Nat.le_trans (regionMark_spec h.whole h.top_lt hlen hrange).2.1
    (Nat.add_le_add_right hn 2)⟩

theorem baseMap_ok (cmos : BitVec 8 → BitVec 8) : MemOk ⟨baseMap (detectRamTop cmos), 1, detectRamTop cmos⟩ := by
  obtain ⟨hlo, hhi, ha⟩ := detectRamTop_bounds cmos
  exact ⟨baseMap_whole hlo hhi ha, hlo, hhi, ha⟩

theorem fwMemInit_ok (cmos : BitVec 8 → BitVec 8) : MemOk (fwMemInit cmos) := by
  obtain ⟨h, hn⟩ := (baseMap_ok cmos).carve 3 0x00000000 0x10 efiRuntimeServicesData (Nat.le_refl 3) (by decide) (by decide) (by decide)
  obtain ⟨h, hn⟩ := h.carve 5 fwPtBase 6 efiRuntimeServicesData hn (by decide) (by decide) (by decide)
  obtain ⟨h, hn⟩ := h.carve 7 0x00090000 0x10 efiBootServicesData hn (by decide) (by decide) (by decide)
  exact (h.carve 9 fwLoadBase ((0x00400000 - fwLoadBase) / efiPageSize) efiRuntimeServicesCode hn (by decide)
    (by decide) (by decide)).1

/-! ## Finding room -/

/-- The room lies in a conventional region, from a page on. -/
def Fits (m : List Region) (need addr : Nat) : Prop :=
  addr % efiPageSize = 0 ∧ ∃ r ∈ m, r.type = efiConventionalMemory ∧ r.start ≤ addr ∧ addr + need ≤ r.limit

theorem bestFit_fits {m : List Region} {lo hi need : Nat} {topDown : Bool} {best : Option Nat} {r : Region}
    (hlo : lo % efiPageSize = 0) (hhi : hi % efiPageSize = 0) (hneed : need % efiPageSize = 0)
    (hr : r ∈ m) (ha : r.start % efiPageSize = 0) (hlim : r.limit < 2 ^ 64)
    (hbest : ∀ addr ∈ best, Fits m need addr) :
    ∀ addr ∈ bestFit lo hi need topDown best r, Fits m need addr := by
  have hend := limit_aligned ha
  unfold bestFit
  rw [stop_eq hlim]
  split
  · exact hbest
  rename_i htype
  dsimp only
  generalize hrs : (if r.start < lo then lo else r.start) = rs
  generalize hre : (if hi < r.limit then hi else r.limit) = re
  have hrsa : rs % efiPageSize = 0 ∧ r.start ≤ rs := by
    subst hrs
    split
    · exact ⟨hlo, by omega⟩
    · exact ⟨ha, Nat.le_refl _⟩
  have hrea : re % efiPageSize = 0 ∧ re ≤ r.limit := by
    subst hre
    split
    · exact ⟨hhi, by omega⟩
    · exact ⟨hend, Nat.le_refl _⟩
  split
  · exact hbest
  rename_i hfit
  have hsub : sub64 re rs = re - rs := sub64_eq (by omega) (by omega)
  rw [hsub] at hfit
  have hcand : Fits m need (if topDown = true then sub64 re need else rs) := by
    refine ⟨?_, r, hr, not_not.1 htype, ?_⟩
    · split
      · rw [sub64_eq (by omega) (by omega)]
        simp only [efiPageSize] at *
        omega
      · exact hrsa.1
    · split
      · rw [sub64_eq (by omega) (by omega)]
        omega
      · omega
  generalize (if topDown = true then sub64 re need else rs) = cand at hcand ⊢
  intro addr haddr
  cases best with
  | none =>
    cases haddr
    exact hcand
  | some b =>
    dsimp only at haddr
    by_cases hbetter : if topDown = true then b < cand else cand < b
    · rw [if_pos hbetter] at haddr
      cases haddr
      exact hcand
    · rw [if_neg hbetter] at haddr
      exact hbest addr haddr

/-- The best address of all regions. -/
theorem foldl_bestFit {m : List Region} {lo hi need : Nat} {topDown : Bool} (hlo : lo % efiPageSize = 0)
    (hhi : hi % efiPageSize = 0) (hneed : need % efiPageSize = 0)
    (hm : ∀ r ∈ m, r.start % efiPageSize = 0 ∧ r.limit < 2 ^ 64) :
    ∀ (l : List Region) (best : Option Nat), (∀ r ∈ l, r ∈ m) → (∀ addr ∈ best, Fits m need addr) →
      ∀ addr ∈ l.foldl (bestFit lo hi need topDown) best, Fits m need addr
  | [], _, _, hbest => hbest
  | r :: l, best, hl, hbest => by
    obtain ⟨hmem, hl⟩ := List.forall_mem_cons.1 hl
    exact foldl_bestFit hlo hhi hneed hm l _ hl
      (bestFit_fits hlo hhi hneed hmem (hm r hmem).1 (hm r hmem).2 hbest)

theorem MemOk.regions (h : MemOk st) : ∀ r ∈ st.map, r.start % efiPageSize = 0 ∧ r.limit < 2 ^ 64 := fun r hr =>
  ⟨Tiled.aligned h.whole.tiled rfl r hr, Nat.lt_of_le_of_lt (h.whole.tiled.bounds r hr).2.2 h.top_lt⟩

/-- A range of conventional pages is inside the map. -/
theorem MemOk.inside (h : MemOk st)
    (hconv : ∀ x, start ≤ x → x < start + pages * efiPageSize → typeAt st.map x = some efiConventionalMemory)
    (hpages : pages ≠ 0) : start + pages * efiPageSize ≤ st.ramTop := by
  have hpos : 0 < pages * efiPageSize := Nat.mul_pos (Nat.pos_of_ne_zero hpages) (by decide)
  -- The last byte is in the map.
  have hlast := hconv (start + pages * efiPageSize - 1) (by omega) (by omega)
  by_contra hout
  rw [typeAt, h.whole.tiled.labelAt_eq_none.2 (by omega)] at hlast
  cases hlast

/-- A range of conventional pages, and the map after it has been marked. -/
theorem MemOk.carved (h : MemOk st) (type : MemoryType) (hlen : st.map.length + 2 ≤ fwMaxRegions)
    (hstart : start % efiPageSize = 0)
    (hconv : ∀ x, start ≤ x → x < start + pages * efiPageSize → typeAt st.map x = some efiConventionalMemory) :
    MemOk (regionMark st start pages type) ∧ Carved st.map (regionMark st start pages type).map start pages type := by
  have hrange : pages ≠ 0 → start % efiPageSize = 0 ∧ start + pages * efiPageSize ≤ st.ramTop :=
    fun hpages => ⟨hstart, h.inside hconv hpages⟩
  have hmarks : Marks st.map _ start _ type := (regionMark_spec h.whole h.top_lt hlen hrange).2.2
  refine ⟨h.mark hlen hrange, fun x => ⟨fun hx => ⟨hconv x hx.1 hx.2, ?_⟩, fun hx => ?_⟩⟩
  · rw [hmarks x, if_pos hx]
  · rw [hmarks x, if_neg hx]

/-- What an allocation does: nothing, or it marks a range of conventional pages from a page on. -/
def Marked (st : Mem) (pages : Nat) (type : MemoryType) (res : Mem × Nat) : Prop :=
  res = (st, 0) ∨ ∃ addr, res = (regionMark st addr pages type, addr) ∧ addr % efiPageSize = 0 ∧
    ∀ x, addr ≤ x → x < addr + pages * efiPageSize → typeAt st.map x = some efiConventionalMemory

theorem Marked.keeps {res : Mem × Nat} (h : Marked st pages type res) (hok : MemOk st)
    (hlen : st.map.length + 2 ≤ fwMaxRegions) :
    MemOk res.1 ∧ (res.2 ≠ 0 → Carved st.map res.1.map res.2 pages type) := by
  obtain rfl | ⟨addr, rfl, ha, hconv⟩ := h
  · exact ⟨hok, fun hne => absurd rfl hne⟩
  · obtain ⟨hok', hcarved⟩ := hok.carved type hlen ha hconv
    exact ⟨hok', fun _ => hcarved⟩

theorem allocFrom_marked (h : MemOk st) {lo hi : Nat} {topDown : Bool}
    (hlo : lo % efiPageSize = 0) (hhi : hi % efiPageSize = 0) (hsize : pages * efiPageSize < 2 ^ 64) :
    Marked st pages type (allocFrom st lo hi pages type topDown) := by
  unfold allocFrom
  split
  · exact .inl rfl
  split
  · exact .inl rfl
  rename_i addr hbest
  rw [mul64_eq hsize] at hbest
  obtain ⟨ha, r, hr, htype, hstart, hfit⟩ := foldl_bestFit hlo hhi (Nat.mul_mod_left _ _) h.regions st.map none
    (fun _ hr => hr) (fun _ hn => absurd hn (Option.not_mem_none _)) addr hbest
  exact .inr ⟨addr, rfl, ha, fun x hx hx' =>
    htype ▸ h.whole.tiled.labelAt_eq hr (Nat.le_trans hstart hx) (Nat.lt_of_lt_of_le hx' hfit)⟩

/-! ## Checking a range -/

/-- What the check goes through is conventional. -/
theorem allConventional_typeAt (h : MemOk st) {cursor stop : Nat} (hall : allConventional st.map cursor stop = true) :
    ∀ x, cursor ≤ x → x < stop → typeAt st.map x = some efiConventionalMemory := by
  fun_induction allConventional st.map cursor stop with
  | case1 => cases hall
  | case2 => cases hall
  | case3 cursor hlt r hr htype hnext ih =>
    have hfind := List.find?_some hr
    obtain ⟨hlo, hhi⟩ := of_decide_eq_true hfind
    have hmem := List.mem_of_find?_eq_some hr
    intro x hx hx'
    by_cases hxr : x < r.stop
    · rw [stop_eq (h.regions r hmem).2] at hxr
      rw [typeAt, h.whole.tiled.labelAt_eq hmem (Nat.le_trans hlo hx) hxr, not_not.1 htype]
    · exact ih hall x (Nat.le_of_not_lt hxr) hx'
  | case4 => exact fun x hx hx' => absurd (Nat.lt_of_le_of_lt hx hx') ‹_›

theorem fwAllocPagesAt_marked (h : MemOk st) (hsize : pages * efiPageSize < 2 ^ 64)
    (hwrap : addr % efiPageSize = 0 → pages ≠ 0 → addr + pages * efiPageSize < 2 ^ 64) :
    Marked st pages type (fwAllocPagesAt st addr pages type) := by
  unfold fwAllocPagesAt
  split
  · exact .inl rfl
  rename_i ha
  have ha : addr % efiPageSize = 0 := not_not.1 ha
  split
  · rename_i hall
    rw [mul64_eq hsize] at hall
    refine .inr ⟨addr, rfl, ha, fun x hx hx' => ?_⟩
    have hpages : pages ≠ 0 := fun he => by
      rw [he, Nat.zero_mul] at hx'
      omega
    rw [add64_eq (hwrap ha hpages)] at hall
    exact allConventional_typeAt h hall x hx hx'
  · exact .inl rfl

theorem fwFreePages_keeps {p : Nat} (h : MemOk st) (hlen : st.map.length + 2 ≤ fwMaxRegions)
    (ha : p % efiPageSize = 0) (hin : p + pages * efiPageSize ≤ st.ramTop) : MemOk (fwFreePages st p pages) := by
  unfold fwFreePages
  split
  · exact h
  · exact h.mark hlen fun _ => ⟨ha, hin⟩

/-- **A call keeps the invariant, and what it hands out it has carved.** -/
theorem exec_keeps (h : MemOk st) {call : Call} (ha : Allowed st call) (hw : call.NoWrap) :
    MemOk (call.next st) ∧ Granted st call := by
  cases call with
  | allocPages pages type => exact (allocFrom_marked h (by decide) h.aligned ha.2.2).keeps h ha.1
  | allocPagesAt addr pages type => exact (fwAllocPagesAt_marked h ha.2.2.2 hw).keeps h ha.1
  | freePages p pages => exact ⟨fwFreePages_keeps h ha.1 ha.2.1 ha.2.2, trivial⟩

/-- A range that wraps is handed out. -/
theorem fwAllocPagesAt_wrapped (ha : addr < 2 ^ 64) (haligned : addr % efiPageSize = 0)
    (hsize : pages * efiPageSize < 2 ^ 64) (hwrap : 2 ^ 64 ≤ addr + pages * efiPageSize) :
    fwAllocPagesAt st addr pages type = (regionMark st addr pages type, addr) := by
  have hend : add64 addr (mul64 pages efiPageSize) ≤ addr := by
    rw [mul64_eq hsize, add64]
    omega
  have hall : allConventional st.map addr (add64 addr (mul64 pages efiPageSize)) = true := by
    rw [allConventional, if_neg (Nat.not_lt_of_le hend)]
  rw [fwAllocPagesAt, if_neg (not_not.2 haligned), if_pos hall]

/-- The last page of a range that wraps is not in the map. -/
theorem MemOk.wrapped_outside (h : MemOk st) (hwrap : 2 ^ 64 ≤ addr + pages * efiPageSize) :
    typeAt st.map (addr + pages * efiPageSize - 1) = none := by
  have htop := h.top_lt
  rw [typeAt, h.whole.tiled.labelAt_eq_none.2 (by omega)]

/-- **A range that wraps is handed out, and its last page is not in the map.** -/
theorem wrapped_not_granted (h : MemOk st) {call : Call} (ha : Allowed st call) (hw : ¬call.NoWrap) :
    ¬Granted st call := by
  cases call with
  | allocPages | freePages => exact absurd trivial hw
  | allocPagesAt addr pages type =>
    simp only [Call.NoWrap, Classical.not_imp, Nat.not_lt] at hw
    obtain ⟨-, haddr, -, hsize⟩ := ha
    obtain ⟨haligned, hpages, hwrap⟩ := hw
    have hexec : fwAllocPagesAt st addr pages type = (regionMark st addr pages type, addr) :=
      fwAllocPagesAt_wrapped haddr haligned hsize hwrap
    intro hg
    have hcarved : Carved st.map (fwAllocPagesAt st addr pages type).1.map (fwAllocPagesAt st addr pages type).2
        pages type := hg (by rw [Call.exec, hexec]; omega)
    rw [hexec] at hcarved
    have hlast := ((hcarved (addr + pages * efiPageSize - 1)).1 (by omega)).1
    rw [h.wrapped_outside hwrap] at hlast
    cases hlast

/-! ## Runs -/

theorem Whole.wellFormed {m0 m : List Region} {top : Nat} (h : Whole m top) (h0 : Tiled 0 m0 top) :
    WellFormed m0 m where
  sorted := h.tiled.pairwise.imp_of_mem fun hr _ hrs => Nat.lt_of_lt_of_le (h.tiled.bounds _ hr).2.1 hrs
  nonempty r hr := by
    have hlt := (h.tiled.bounds r hr).2.1
    refine Nat.pos_of_ne_zero fun hz => ?_
    rw [Region.limit, hz, Nat.zero_mul] at hlt
    exact Nat.lt_irrefl _ hlt
  apart := h.tiled.pairwise
  covers _ := h.tiled.exists_iff.trans h0.exists_iff.symm
  merged := h.merged

theorem ramTop_next (st : Mem) (call : Call) : (call.next st).ramTop = st.ramTop := by
  cases call with
  | allocPages pages type =>
    show (allocFrom ..).1.ramTop = _
    unfold allocFrom
    split
    · rfl
    · split <;> rfl
  | allocPagesAt addr pages type =>
    show (fwAllocPagesAt ..).1.ramTop = _
    unfold fwAllocPagesAt
    split
    · rfl
    · split <;> rfl
  | freePages p pages =>
    show (fwFreePages ..).ramTop = _
    unfold fwFreePages
    split <;> rfl

/-- The terms of the calls, and no range that wraps. -/
def Terms (st : Mem) (call : Call) : Prop := Allowed st call ∧ call.NoWrap

theorem MemOk.run (h0 : MemOk st) (calls : List Call) (hs : Runs.Each Call.next Terms st calls) :
    MemOk (calls.foldl Call.next st) ∧ WellFormed st.map (calls.foldl Call.next st).map := by
  obtain ⟨hok, htop⟩ := Runs.Each.invariant (fun st' => MemOk st' ∧ st'.ramTop = st.ramTop)
    (fun st' call ⟨h, htop⟩ hc => ⟨(exec_keeps h hc.1 hc.2).1, (ramTop_next st' call).trans htop⟩) st calls
    ⟨h0, rfl⟩ hs
  have hwhole := hok.whole
  rw [htop] at hwhole
  exact ⟨hok, hwhole.wellFormed h0.whole.tiled⟩

/-- **The map stays well formed in every run without a range that wraps**, and what is handed out has been
carved. -/
theorem map_well_formed (cmos : BitVec 8 → BitVec 8) (calls : List Call)
    (hs : Runs.Each Call.next Terms (fwMemInit cmos) calls) :
    WellFormed (fwMemInit cmos).map (calls.foldl Call.next (fwMemInit cmos)).map ∧
      ∀ call, Terms (calls.foldl Call.next (fwMemInit cmos)) call →
        Granted (calls.foldl Call.next (fwMemInit cmos)) call := by
  obtain ⟨hok, hwf⟩ := (fwMemInit_ok cmos).run calls hs
  exact ⟨hwf, fun call hc => (exec_keeps hok hc.1 hc.2).2⟩

/-- Memory of 128 MB: two pages are handed out, and one is freed. -/
theorem map_well_formed_sample : WellFormed (fwMemInit fun _ => 0).map
    ([Call.allocPages 2 efiBootServicesData, .freePages fwHeapBase 1].foldl Call.next (fwMemInit fun _ => 0)).map := by
  refine (map_well_formed (fun _ => 0) [Call.allocPages 2 efiBootServicesData, .freePages fwHeapBase 1]
    ⟨⟨⟨?_, ?_⟩, trivial⟩, ⟨⟨?_, ?_⟩, trivial⟩, trivial⟩).1
  · decide
  · exact ⟨by decide, by decide⟩
  · decide
  · exact ⟨by decide, by decide⟩

/-- **The last page of the address space is handed out.** -/
theorem map_hands_out_nothing : ¬∀ (cmos : BitVec 8 → BitVec 8) (calls : List Call),
    Runs.Each Call.next Allowed (fwMemInit cmos) calls →
      WellFormed (fwMemInit cmos).map (calls.foldl Call.next (fwMemInit cmos)).map ∧
        ∀ call, Allowed (calls.foldl Call.next (fwMemInit cmos)) call →
          Granted (calls.foldl Call.next (fwMemInit cmos)) call := fun h => by
  have hallowed : Allowed (fwMemInit fun _ => 0) (.allocPagesAt 0xFFFFFFFFFFFFF000 1 2) :=
    ⟨by decide, by decide, by decide, by decide⟩
  refine wrapped_not_granted (fwMemInit_ok _) hallowed (fun hw => ?_) ((h (fun _ => 0) [] trivial).2 _ hallowed)
  exact absurd (hw (by decide) (by decide)) (by decide)

end WuBuOS.Firmware
