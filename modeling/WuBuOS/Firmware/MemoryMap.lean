import WuBuOS.Firmware.Memory
import WuBuOS.Lib.Tiling

/-!
# The map under `region_mark`

The regions tile the memory from 0 to the top of RAM (`Tiled`), and what is at an address is the type of
its region (`typeAt`).  `region_mark` cuts every region that the range meets (`paint`), and then joins
neighbours of one type.  The loop rewrites the table that it walks over.

* `markEntry_meet`: a region at the index is cut into up to three parts, as long as there is room for them.
* `markLoop_eq`: what is behind the index is as it was, and what is in front of it has been painted.
* `regionCoalesce_typeAt`: joining neighbours covers the same memory.
* `length_flatMap_paint`: the range adds a region at each of its ends that is inside of one, and so `regionMark_spec`:
  with two entries to spare every range of pages is marked.
-/

namespace WuBuOS.Firmware

open Tiling

/-- Where the region ends. -/
def Region.limit (r : Region) : Nat := r.start + r.pages * efiPageSize

abbrev Tiled (a : Nat) (m : List Region) (b : Nat) : Prop := Tiles Region.start Region.limit a m b

/-- The type of the memory at an address, if the map covers it. -/
def typeAt (m : List Region) (x : Nat) : Option MemoryType := labelAt Region.start Region.limit Region.type m x

/-- Neighbours differ in their types. -/
def Merged (m : List Region) : Prop := m.IsChain fun r s => r.type ≠ s.type

variable {a b x start stop fuel : Nat} {type : MemoryType} {r s : Region} {m rest pre post : List Region}

theorem stop_eq (h : r.limit < 2 ^ 64) : r.stop = r.limit := by
  have hm : mul64 r.pages efiPageSize = r.pages * efiPageSize :=
    mul64_eq (Nat.lt_of_le_of_lt (Nat.le_add_left ..) h)
  rw [Region.stop, hm, add64_eq h]
  rfl

/-- In a map that starts at a page, every region does. -/
theorem Tiled.aligned : ∀ {a : Nat} {m : List Region}, Tiled a m b → a % efiPageSize = 0 →
    ∀ r ∈ m, r.start % efiPageSize = 0
  | a, r :: m, ⟨hlo, _, h⟩, ha, s, hs => by
    rcases List.mem_cons.1 hs with rfl | hs
    · exact hlo ▸ ha
    · refine Tiled.aligned h ?_ s hs
      show (r.start + r.pages * efiPageSize) % efiPageSize = 0
      rw [Nat.add_mul_mod_self_right, hlo, ha]

/-! ## Joining neighbours -/

/-- Two neighbours as one. -/
theorem limit_joined (hr : r.limit = s.start) (hs : s.limit < 2 ^ 64) :
    ({ r with pages := add64 r.pages s.pages } : Region).limit = s.limit := by
  have hpages : r.pages + s.pages < 2 ^ 64 := by
    have : s.limit = r.start + r.pages * 4096 + s.pages * 4096 := by rw [Region.limit, ← hr]; rfl
    omega
  show r.start + add64 r.pages s.pages * 4096 = s.limit
  rw [add64_eq hpages, Region.limit, ← hr, Nat.add_mul, ← Nat.add_assoc]
  rfl

theorem coalesceFrom_typeAt (hb : b < 2 ^ 64) (h : Tiled a (r :: rest) b) :
    typeAt (coalesceFrom r rest) x = typeAt (r :: rest) x := by
  fun_induction coalesceFrom r rest generalizing a with
  | case1 => rfl
  | case2 r s rest hjoin ih =>
    have hs := Nat.lt_of_le_of_lt (h.2.2.2.2.le) hb
    have hlim := limit_joined h.2.2.1.symm hs
    rw [ih (h.join rfl hlim)]
    exact h.labelAt_join rfl hlim rfl hjoin.1
  | case3 r s rest hne ih =>
    have hrest := ih h.2.2
    unfold typeAt at hrest ⊢
    rw [labelAt_cons, labelAt_cons, hrest]

/-- The first region keeps its type. -/
theorem coalesceFrom_head (r : Region) (rest : List Region) :
    ∃ s l, coalesceFrom r rest = s :: l ∧ s.type = r.type := by
  fun_induction coalesceFrom r rest with
  | case1 r => exact ⟨r, [], rfl, rfl⟩
  | case2 r s rest hjoin ih => exact ih
  | case3 r s rest hne ih => exact ⟨r, _, rfl, rfl⟩

/-- **What is joined covers the same memory**, and no two neighbours can be joined. -/
theorem coalesceFrom_spec (hb : b < 2 ^ 64) (h : Tiled a (r :: rest) b) :
    Tiled a (coalesceFrom r rest) b ∧ Merged (coalesceFrom r rest) := by
  fun_induction coalesceFrom r rest generalizing a with
  | case1 r => exact ⟨h, .singleton r⟩
  | case2 r s rest hjoin ih =>
    have hs := Nat.lt_of_le_of_lt (h.2.2.2.2.le) hb
    exact ih (h.join rfl (limit_joined h.2.2.1.symm hs))
  | case3 r s rest hne ih =>
    have hlim := Nat.lt_of_le_of_lt (Tiles.le h.2.2) hb
    have htype : r.type ≠ s.type := fun he => hne ⟨he, (stop_eq hlim).trans h.2.2.1.symm⟩
    obtain ⟨s', l, he, hs'⟩ := coalesceFrom_head s rest
    obtain ⟨htiled, hrest⟩ := ih h.2.2
    refine ⟨⟨h.1, h.2.1, htiled⟩, ?_⟩
    rw [he] at hrest ⊢
    exact .cons_cons (hs' ▸ htype) hrest

theorem length_coalesceFrom (r : Region) (rest : List Region) : (coalesceFrom r rest).length ≤ (r :: rest).length := by
  fun_induction coalesceFrom r rest with
  | case1 => exact Nat.le_refl _
  | case2 r s rest hjoin ih => exact Nat.le_succ_of_le ih
  | case3 r s rest hne ih => exact Nat.succ_le_succ ih

/-! ## Painting a region -/

/-- The part in front of the range, the part in it, and the part behind it. -/
def before (start : Nat) (r : Region) : Region := { r with pages := (start - r.start) / efiPageSize }

def within (start stop : Nat) (type : MemoryType) (r : Region) : Region :=
  let cs := if r.start < start then start else r.start
  let ce := if stop < r.limit then stop else r.limit
  ⟨cs, (ce - cs) / efiPageSize, type, if r.start < start then efiMemoryWb else r.attr⟩

def behind (stop : Nat) (r : Region) : Region := ⟨stop, (r.limit - stop) / efiPageSize, r.type, efiMemoryWb⟩

/-- The parts of a region that the range meets. -/
def parts (start stop : Nat) (type : MemoryType) (r : Region) : List Region :=
  (if r.start < start then [before start r] else []) ++
    within start stop type r :: if stop < r.limit then [behind stop r] else []

def paint (start stop : Nat) (type : MemoryType) (r : Region) : List Region :=
  if stop ≤ r.start ∨ r.limit ≤ start then [r] else parts start stop type r

/-- The range is one of pages, and not empty. -/
structure PageRange (start stop : Nat) : Prop where
  starts : start % efiPageSize = 0
  stops : stop % efiPageSize = 0
  lt : start < stop

theorem limit_aligned (h : r.start % efiPageSize = 0) : r.limit % efiPageSize = 0 := by
  rw [Region.limit, Nat.add_mul_mod_self_right, h]

theorem pages_mul (ha : a % efiPageSize = 0) (hb : b % efiPageSize = 0) (hab : a ≤ b) :
    a + (b - a) / efiPageSize * efiPageSize = b := by
  simp only [efiPageSize] at *
  omega

section

variable (hp : PageRange start stop) (hr : r.start % efiPageSize = 0)

include hp hr

theorem before_limit (h : r.start ≤ start) : (before start r).limit = start := pages_mul hr hp.starts h

theorem behind_limit (h : stop ≤ r.limit) : (behind stop r).limit = r.limit :=
  pages_mul hp.stops (limit_aligned hr) h

variable (hlt : r.start < r.limit) (hmeet : ¬(stop ≤ r.start ∨ r.limit ≤ start))

include hlt hmeet

theorem within_limit : (within start stop type r).limit = if stop < r.limit then stop else r.limit := by
  obtain ⟨hstart, hstop, hss⟩ := hp
  have hcs : (within start stop type r).start = if r.start < start then start else r.start := rfl
  refine pages_mul ?_ ?_ ?_
  · rw [hcs]
    split <;> assumption
  · split
    · exact hstop
    · exact limit_aligned hr
  · rw [hcs]
    split <;> split <;> omega

theorem parts_tiled : Tiled r.start (parts start stop type r) r.limit := by
  have hbody : (within start stop type r).limit = _ := within_limit hp hr hlt hmeet
  have hcs : (within start stop type r).start = if r.start < start then start else r.start := rfl
  have hss := hp.lt
  refine tiles_append.2 ⟨(within start stop type r).start, ?_, rfl, ?_, ?_⟩
  · rw [hcs]
    split
    · rename_i hhead
      have hcut := before_limit hp hr (Nat.le_of_lt hhead)
      exact ⟨rfl, by rw [hcut]; exact hhead, hcut⟩
    · rfl
  · rw [hbody, hcs]
    split <;> split <;> omega
  · rw [hbody]
    split
    · rename_i htail
      have hcut := behind_limit hp hr (Nat.le_of_lt htail)
      exact ⟨rfl, by rw [hcut]; exact htail, hcut⟩
    · rfl

/-- Each part has its type, and the parts cover the region. -/
theorem parts_typeAt (hx : r.start ≤ x) (hx' : x < r.limit) :
    typeAt (parts start stop type r) x = some (if start ≤ x ∧ x < stop then type else r.type) := by
  have htiled : Tiled r.start (parts start stop type r) r.limit := parts_tiled hp hr hlt hmeet
  have hbody : (within start stop type r).limit = _ := within_limit hp hr hlt hmeet
  have hcs : (within start stop type r).start = if r.start < start then start else r.start := rfl
  by_cases hhead : x < start
  · have hmem : before start r ∈ parts start stop type r := by
      rw [parts, if_pos (Nat.lt_of_le_of_lt hx hhead)]
      exact List.mem_cons_self
    rw [if_neg (by omega)]
    refine htiled.labelAt_eq (r := before start r) hmem hx ?_
    rw [before_limit hp hr (by omega)]
    exact hhead
  by_cases htail : x < stop
  · have hmem : within start stop type r ∈ parts start stop type r := List.mem_append_right _ List.mem_cons_self
    rw [if_pos ⟨Nat.le_of_not_lt hhead, htail⟩]
    refine htiled.labelAt_eq (r := within start stop type r) hmem ?_ ?_
    · rw [hcs]
      split <;> omega
    · rw [hbody]
      split <;> omega
  · have hmem : behind stop r ∈ parts start stop type r := by
      rw [parts, if_pos (c := stop < r.limit) (by omega)]
      exact List.mem_append_right _ (List.mem_cons_of_mem _ List.mem_cons_self)
    rw [if_neg (by omega)]
    refine htiled.labelAt_eq (r := behind stop r) hmem (Nat.le_of_not_lt htail) ?_
    rw [behind_limit hp hr (by omega)]
    exact hx'

end

theorem paint_tiled (hp : PageRange start stop) (hr : r.start % efiPageSize = 0) (hlt : r.start < r.limit) :
    Tiled r.start (paint start stop type r) r.limit := by
  unfold paint
  split
  · exact ⟨rfl, hlt, rfl⟩
  · exact parts_tiled hp hr hlt ‹_›

theorem paint_typeAt (hp : PageRange start stop) (hr : r.start % efiPageSize = 0) (hx : r.start ≤ x)
    (hx' : x < r.limit) :
    typeAt (paint start stop type r) x = some (if start ≤ x ∧ x < stop then type else r.type) := by
  unfold paint
  split
  · rw [if_neg (by omega), typeAt, labelAt_cons, if_pos ⟨hx, hx'⟩]
  · exact parts_typeAt hp hr (Nat.lt_of_le_of_lt hx hx') ‹_› hx hx'

/-! ## How many regions there are -/

/-- The regions that hold the address behind their first byte: where the map is cut, it gets as many more. -/
def cuts (m : List Region) (x : Nat) : Nat := m.countP fun r => r.start < x ∧ x < r.limit

theorem length_paint (hss : start < stop) (type : MemoryType) (r : Region) :
    (paint start stop type r).length = 1 + cuts [r] start + cuts [r] stop := by
  unfold paint cuts parts
  simp only [List.countP_singleton, decide_eq_true_eq]
  split_ifs <;> simp <;> omega

/-- **The range cuts the map at its ends.** -/
theorem length_flatMap_paint (hss : start < stop) (type : MemoryType) : ∀ m : List Region,
    (m.flatMap (paint start stop type)).length = m.length + cuts m start + cuts m stop
  | [] => rfl
  | r :: m => by
    have hcons : ∀ x, cuts (r :: m) x = cuts m x + cuts [r] x := fun x => by simp [cuts, List.countP_cons]
    rw [List.flatMap_cons, List.length_append, length_flatMap_paint hss type m, length_paint hss, hcons, hcons,
      List.length_cons]
    omega

theorem length_le_flatMap_paint (start stop : Nat) (type : MemoryType) (m : List Region) :
    m.length ≤ (m.flatMap (paint start stop type)).length := by
  induction m with
  | nil => exact Nat.le_refl _
  | cons r m ih =>
    have hpaint : 0 < (paint start stop type r).length := by
      unfold paint parts
      split_ifs <;> simp
    rw [List.flatMap_cons, List.length_append, List.length_cons]
    omega

/-- Only one region holds the address. -/
theorem Tiled.cuts_le : ∀ {a : Nat} {m : List Region}, Tiled a m b → cuts m x ≤ 1
  | _, [], _ => Nat.zero_le _
  | a, r :: m, ⟨_, _, h⟩ => by
    have ih : cuts m x ≤ 1 := Tiled.cuts_le h
    unfold cuts at ih ⊢
    rw [List.countP_cons]
    split
    · rename_i hx
      have hbehind : m.countP (fun s => s.start < x ∧ x < s.limit) = 0 := by
        refine List.countP_eq_zero.2 fun s hs hs' => ?_
        have hle := (Tiles.bounds h s hs).1
        simp only [decide_eq_true_eq] at hx hs'
        omega
      omega
    · exact ih

/-- The table has room for the regions that the range cuts off. -/
def Room (m : List Region) (start stop : Nat) : Prop := m.length + cuts m start + cuts m stop ≤ fwMaxRegions

theorem Tiled.room (h : Tiled a m b) (hlen : m.length + 2 ≤ fwMaxRegions) : Room m start stop := by
  have hstart : cuts m start ≤ 1 := h.cuts_le
  have hstop : cuts m stop ≤ 1 := h.cuts_le
  unfold Room
  omega

/-! ## The loop -/

theorem entry_append : entry (pre ++ r :: post) pre.length = r := by
  rw [entry, List.getD_eq_getElem?_getD, List.getElem?_append_right (Nat.le_refl _), Nat.sub_self]
  rfl

theorem modify_append (f : Region → Region) (r : Region) (post : List Region) :
    ∀ pre : List Region, (pre ++ r :: post).modify pre.length f = pre ++ f r :: post
  | [] => rfl
  | s :: pre => congrArg (s :: ·) (modify_append f r post pre)

theorem insertIdx_append (r s : Region) (post : List Region) :
    ∀ pre : List Region, (pre ++ r :: post).insertIdx (pre.length + 1) s = pre ++ r :: s :: post
  | [] => rfl
  | t :: pre => congrArg (t :: ·) (insertIdx_append r s post pre)

/-- A region is put behind the one at the index. -/
theorem regionInsert_append {pages : Nat} (hroom : (pre ++ r :: post).length < fwMaxRegions) :
    regionInsert (pre ++ r :: post) (pre.length + 1) start pages type =
      pre ++ r :: ⟨start, pages, type, efiMemoryWb⟩ :: post := by
  rw [regionInsert, if_neg (Nat.not_le_of_lt hroom), insertIdx_append]

/-- What the head split leaves at the index: the rest of the region. -/
def afterHead (start : Nat) (r : Region) : Region := ⟨start, (r.limit - start) / efiPageSize, r.type, efiMemoryWb⟩

theorem headSplit_append (hle : r.start ≤ start) (hmeet : start ≤ r.limit) (hlim : r.limit < 2 ^ 64)
    (hroom : (pre ++ r :: post).length < fwMaxRegions) :
    headSplit (pre ++ r :: post) pre.length r.start start r.limit =
      (pre ++ before start r :: afterHead start r :: post, pre.length + 1) := by
  unfold headSplit
  rw [entry_append, modify_append, sub64_eq hle (Nat.lt_of_le_of_lt hmeet hlim), sub64_eq hmeet hlim]
  refine congrArg (·, pre.length + 1) (regionInsert_append ?_)
  rw [List.length_append] at hroom ⊢
  exact hroom

theorem tailSplit_append {rs re : Nat} (hle : rs ≤ stop) (hmeet : stop ≤ re) (hlim : re < 2 ^ 64)
    (hroom : (pre ++ r :: post).length < fwMaxRegions) :
    tailSplit (pre ++ r :: post) pre.length rs stop re = pre ++ { r with pages := (stop - rs) / efiPageSize } ::
      ⟨stop, (re - stop) / efiPageSize, r.type, efiMemoryWb⟩ :: post := by
  unfold tailSplit
  rw [entry_append, regionInsert_append hroom, modify_append, sub64_eq hmeet hlim,
    sub64_eq hle (Nat.lt_of_le_of_lt hmeet hlim)]

/-- A region that the range does not meet is passed over. -/
theorem markEntry_skip (hskip : stop ≤ r.start ∨ r.limit ≤ start) (hlim : r.limit < 2 ^ 64) :
    markEntry start stop type (pre ++ r :: post) pre.length = (pre ++ r :: post, pre.length + 1) := by
  simp only [markEntry, entry_append, stop_eq hlim]
  exact if_pos hskip

/-- The number of splits that the range makes in the region. -/
def splits (start stop : Nat) (r : Region) : Nat :=
  (if r.start < start then 1 else 0) + if stop < r.limit then 1 else 0

theorem pages_eq (r : Region) : (r.limit - r.start) / efiPageSize = r.pages := by
  rw [Region.limit, Nat.add_sub_cancel_left, Nat.mul_div_cancel _ (by decide)]

theorem markRest_append (type : MemoryType) (pre post : List Region) (hlt : r.start ≤ stop) (hlim : r.limit < 2 ^ 64)
    (hroom : (pre ++ r :: post).length + (if stop < r.limit then 1 else 0) ≤ fwMaxRegions) :
    markRest (if stop < r.limit then stop else r.limit) type (pre ++ r :: post) pre.length r.start r.limit =
      (pre ++ { r with pages := ((if stop < r.limit then stop else r.limit) - r.start) / efiPageSize, type := type } ::
        ((if stop < r.limit then [behind stop r] else []) ++ post), pre.length + 1) := by
  unfold markRest
  by_cases htail : stop < r.limit
  · rw [if_pos htail] at hroom
    simp only [if_pos htail]
    rw [tailSplit_append hlt (Nat.le_of_lt htail) hlim hroom, modify_append]
    rfl
  · simp only [if_neg htail, Nat.lt_irrefl, if_false]
    rw [modify_append, pages_eq]
    rfl

theorem afterHead_limit (hp : PageRange start stop) (hr : r.start % efiPageSize = 0) (hmeet : start ≤ r.limit) :
    (afterHead start r).limit = r.limit := pages_mul hp.starts (limit_aligned hr) hmeet

/-- The rest of a region whose head has been cut off. -/
theorem markEntry_head (type : MemoryType) (pre post : List Region) (hp : PageRange start stop)
    (hr : r.start % efiPageSize = 0) (hmeet : ¬(stop ≤ r.start ∨ r.limit ≤ start)) (hlim : r.limit < 2 ^ 64)
    (hhead : r.start < start) (hroom : (pre ++ r :: post).length < fwMaxRegions) :
    markEntry start stop type (pre ++ r :: post) pre.length =
      markRest (if stop < r.limit then stop else r.limit) type (pre ++ before start r :: afterHead start r :: post)
        (pre.length + 1) start r.limit := by
  have hlimit := afterHead_limit hp hr (show start ≤ r.limit by omega)
  have hlen : (pre ++ [before start r]).length = pre.length + 1 := List.length_append
  have hentry : entry (pre ++ before start r :: afterHead start r :: post) (pre.length + 1) = afterHead start r := by
    rw [List.append_cons, ← hlen]
    exact entry_append
  have hstop : add64 start (mul64 (afterHead start r).pages efiPageSize) = r.limit :=
    (stop_eq (r := afterHead start r) (hlimit ▸ hlim)).trans hlimit
  simp only [markEntry, entry_append, stop_eq hlim]
  rw [if_neg hmeet]
  simp only [if_pos hhead]
  rw [headSplit_append (Nat.le_of_lt hhead) (by omega) hlim hroom]
  rw [hentry, hstop]

theorem markEntry_no_head (type : MemoryType) (pre post : List Region)
    (hmeet : ¬(stop ≤ r.start ∨ r.limit ≤ start)) (hlim : r.limit < 2 ^ 64) (hhead : ¬r.start < start) :
    markEntry start stop type (pre ++ r :: post) pre.length =
      markRest (if stop < r.limit then stop else r.limit) type (pre ++ r :: post) pre.length r.start r.limit := by
  simp only [markEntry, entry_append, stop_eq hlim]
  rw [if_neg hmeet]
  simp only [if_neg hhead, Nat.lt_irrefl, if_false]

/-- **A region that the range meets is cut into its parts**, and the index goes on behind the part in the
range. -/
theorem markEntry_meet (hp : PageRange start stop) (hr : r.start % efiPageSize = 0)
    (hmeet : ¬(stop ≤ r.start ∨ r.limit ≤ start)) (hlim : r.limit < 2 ^ 64)
    (hroom : (pre ++ r :: post).length + splits start stop r ≤ fwMaxRegions) :
    markEntry start stop type (pre ++ r :: post) pre.length = (pre ++ (parts start stop type r ++ post),
      (pre ++ if r.start < start then [before start r] else []).length + 1) := by
  unfold splits at hroom
  by_cases hhead : r.start < start
  · rw [if_pos hhead] at hroom
    have hlimit := afterHead_limit hp hr (show start ≤ r.limit by omega)
    have hlen : (pre ++ [before start r]).length = pre.length + 1 := List.length_append
    have hrest := markRest_append (r := afterHead start r) type (pre ++ [before start r]) post
      (Nat.le_of_lt hp.lt) (hlimit ▸ hlim)
    rw [hlimit, hlen, ← List.append_cons] at hrest
    rw [markEntry_head type pre post hp hr hmeet hlim hhead (by omega)]
    refine (hrest ?_).trans ?_
    · simp only [List.length_append, List.length_cons] at hroom ⊢
      omega
    · have hbehind : behind stop (afterHead start r) = behind stop r := by
        rw [behind, hlimit]
        rfl
      unfold parts within
      simp only [if_pos hhead]
      rw [hlen, hbehind, List.append_assoc]
      rfl
  · rw [if_neg hhead] at hroom
    rw [markEntry_no_head type pre post hmeet hlim hhead, markRest_append _ _ _ (by omega) hlim (by omega)]
    unfold parts within
    simp only [if_neg hhead]
    rw [List.append_nil]
    rfl

theorem markLoop_skip (hskip : stop ≤ r.start ∨ r.limit ≤ start) (hlim : r.limit < 2 ^ 64) :
    markLoop start stop type (fuel + 1) (pre ++ r :: post) pre.length =
      markLoop start stop type fuel (pre ++ [r] ++ post) (pre ++ [r]).length := by
  have hlt : pre.length < (pre ++ r :: post).length := by simp
  rw [markLoop, if_pos hlt, markEntry_skip hskip hlim, List.append_cons, List.length_append]
  rfl

/-- What a region leaves in front of the index, and behind it. -/
theorem markLoop_meet (type : MemoryType) (fuel : Nat) (pre post : List Region) (hp : PageRange start stop) (hr : r.start % efiPageSize = 0)
    (hmeet : ¬(stop ≤ r.start ∨ r.limit ≤ start)) (hlim : r.limit < 2 ^ 64)
    (hroom : (pre ++ r :: post).length + splits start stop r ≤ fwMaxRegions) :
    ∃ done todo, parts start stop type r = done ++ todo ∧ (∀ s ∈ todo, stop ≤ s.start ∧ s.limit = r.limit) ∧
      0 < done.length ∧ todo.length ≤ 1 ∧
      markLoop start stop type (fuel + 1) (pre ++ r :: post) pre.length =
        markLoop start stop type fuel (pre ++ done ++ (todo ++ post)) (pre ++ done).length := by
  have hlt : pre.length < (pre ++ r :: post).length := by simp
  refine ⟨(if r.start < start then [before start r] else []) ++ [within start stop type r],
    if stop < r.limit then [behind stop r] else [], ?_, fun s hs => ?_, by simp, ?_, ?_⟩
  · rw [parts, List.append_assoc]
    rfl
  · split at hs
    · obtain rfl := List.mem_singleton.1 hs
      exact ⟨Nat.le_refl _, behind_limit hp hr (Nat.le_of_lt ‹_›)⟩
    · cases hs
  · split
    · exact Nat.le_refl _
    · exact Nat.zero_le _
  · rw [markLoop, if_pos hlt, markEntry_meet hp hr hmeet hlim hroom]
    unfold parts
    simp only [List.append_assoc, List.length_append, List.cons_append, List.nil_append, List.length_cons,
      List.length_nil, Nat.add_assoc]

theorem length_parts (start stop : Nat) (type : MemoryType) (r : Region) :
    (parts start stop type r).length = splits start stop r + 1 := by
  unfold parts splits
  rw [List.length_append, List.length_cons]
  split <;> split <;> rfl

/-- **The loop paints the region at the index**, if the table has the room, and goes on behind its parts. -/
theorem markLoop_paint (type : MemoryType) (post : List Region) (hp : PageRange start stop)
    (hr : r.start % efiPageSize = 0) (hlim : r.limit < 2 ^ 64)
    (hfuel : fwMaxRegions ≤ fuel + pre.length)
    (hroom : (pre ++ paint start stop type r ++ post).length ≤ fwMaxRegions) :
    ∃ n, fwMaxRegions ≤ n + (pre ++ paint start stop type r).length ∧
      markLoop start stop type fuel (pre ++ r :: post) pre.length =
        markLoop start stop type n (pre ++ paint start stop type r ++ post) (pre ++ paint start stop type r).length := by
  unfold paint at hroom ⊢
  by_cases hmeet : stop ≤ r.start ∨ r.limit ≤ start
  · simp only [if_pos hmeet, List.length_append, List.length_cons, List.length_nil] at hroom ⊢
    obtain ⟨fuel, rfl⟩ : ∃ n, fuel = n + 1 := ⟨fuel - 1, by omega⟩
    exact ⟨fuel, by omega, by simpa using markLoop_skip hmeet hlim⟩
  · rw [if_neg hmeet] at hroom ⊢
    have hcount := length_parts start stop type r
    simp only [List.length_append] at hroom
    obtain ⟨fuel, rfl⟩ : ∃ n, fuel = n + 1 := ⟨fuel - 1, by omega⟩
    obtain ⟨done, todo, hparts, htodo, hdone, htodo1, he⟩ := markLoop_meet type fuel pre post hp hr hmeet hlim
      (by rw [List.length_append, List.length_cons]; omega)
    rw [hparts, List.length_append] at hcount hroom
    rw [he, hparts, ← List.append_assoc pre done todo]
    -- At most one part is still behind the index, and the range does not meet it.
    match todo, htodo, htodo1, hcount, hroom with
    | [], _, _, hcount, _ =>
      refine ⟨fuel, ?_, by simp⟩
      simp only [List.length_append, List.length_nil] at hcount ⊢
      omega
    | [t], htodo, _, hcount, hroom =>
      obtain ⟨hskip, htlim⟩ := htodo t List.mem_cons_self
      simp only [List.length_cons, List.length_nil] at hcount hroom
      obtain ⟨fuel, rfl⟩ : ∃ n, fuel = n + 1 := ⟨fuel - 1, by omega⟩
      refine ⟨fuel, ?_, ?_⟩
      · simp only [List.length_append, List.length_cons, List.length_nil]
        omega
      · rw [List.cons_append, List.nil_append, markLoop_skip (.inl hskip) (htlim ▸ hlim)]

/-- **What is behind the index is as it was, and what is in front of it has been painted.**  The induction
is on the regions behind the index. -/
theorem markLoop_eq (hp : PageRange start stop) (hb : b < 2 ^ 64) :
    ∀ {rest : List Region} (pre : List Region) (fuel : Nat) {a : Nat}, Tiled a rest b → a % efiPageSize = 0 →
      fwMaxRegions ≤ fuel + pre.length →
      (pre ++ rest.flatMap (paint start stop type)).length ≤ fwMaxRegions →
      markLoop start stop type fuel (pre ++ rest) pre.length = pre ++ rest.flatMap (paint start stop type)
  | [], pre, fuel, a, _, _, _, _ => by
    cases fuel with
    | zero => rfl
    | succ fuel => rw [markLoop, if_neg (by simp)]; rfl
  | r :: rest, pre, fuel, a, ⟨hlo, hlt, ht⟩, ha, hfuel, hroom => by
    have hlim := Nat.lt_of_le_of_lt (Tiles.le ht) hb
    have hr : r.start % efiPageSize = 0 := hlo ▸ ha
    rw [List.flatMap_cons, ← List.append_assoc] at hroom ⊢
    have hlen := length_le_flatMap_paint start stop type rest
    obtain ⟨n, hn, he⟩ := markLoop_paint type rest hp hr hlim hfuel (by
      simp only [List.length_append] at hroom ⊢
      omega)
    rw [he]
    exact markLoop_eq hp hb _ n ht (limit_aligned hr) hn hroom

/-! ## `region_mark` -/

/-- The map is whole: its regions tile the memory, and neighbours differ. -/
structure Whole (m : List Region) (top : Nat) : Prop where
  tiled : Tiled 0 m top
  merged : Merged m

theorem regionCoalesce_whole (hb : b < 2 ^ 64) (h : Tiled 0 m b) : Whole (regionCoalesce m) b := by
  cases m with
  | nil => exact ⟨h, .nil⟩
  | cons r rest => exact ⟨(coalesceFrom_spec hb h).1, (coalesceFrom_spec hb h).2⟩

theorem regionCoalesce_typeAt (hb : b < 2 ^ 64) (h : Tiled 0 m b) : typeAt (regionCoalesce m) x = typeAt m x := by
  cases m with
  | nil => rfl
  | cons r rest => exact coalesceFrom_typeAt hb h

theorem length_regionCoalesce (m : List Region) : (regionCoalesce m).length ≤ m.length := by
  cases m with
  | nil => exact Nat.le_refl _
  | cons r rest => exact length_coalesceFrom r rest

/-- What is in the range has the type, and everything else the type that it had. -/
def Marks (m m' : List Region) (start stop : Nat) (type : MemoryType) : Prop :=
  ∀ x, typeAt m' x = if start ≤ x ∧ x < stop then some type else typeAt m x

variable {st : Mem} {pages : Nat}

theorem PageRange.of_pages (hpages : pages ≠ 0) (hstart : start % efiPageSize = 0) :
    PageRange start (start + pages * efiPageSize) := by
  refine ⟨hstart, by rw [Nat.add_mul_mod_self_right, hstart], ?_⟩
  simp only [efiPageSize]
  omega

theorem regionMark_map (st : Mem) (start : Nat) (type : MemoryType) (hpages : pages ≠ 0)
    (hstop : start + pages * efiPageSize < 2 ^ 64) :
    (regionMark st start pages type).map =
      regionCoalesce (markLoop start (start + pages * efiPageSize) type fwMaxRegions st.map 0) := by
  have hend : add64 start (mul64 pages efiPageSize) = start + pages * efiPageSize := by
    rw [mul64_eq (by omega), add64_eq hstop]
  show regionCoalesce (if pages = 0 then st.map else _) = _
  rw [if_neg hpages, hend]

/-- **A range of pages inside the map is marked**, if the table has room for what is cut off. -/
theorem regionMark_of_room (type : MemoryType) (h : Whole st.map st.ramTop) (htop : st.ramTop < 2 ^ 64) (hpages : pages ≠ 0)
    (hstart : start % efiPageSize = 0) (hstop : start + pages * efiPageSize ≤ st.ramTop)
    (hroom : Room st.map start (start + pages * efiPageSize)) :
    Whole (regionMark st start pages type).map st.ramTop ∧ (regionMark st start pages type).map.length ≤
        st.map.length + cuts st.map start + cuts st.map (start + pages * efiPageSize) ∧
      Marks st.map (regionMark st start pages type).map start (start + pages * efiPageSize) type := by
  have hp := PageRange.of_pages hpages hstart
  have hcount := length_flatMap_paint hp.lt type st.map
  have hloop : _ = [] ++ st.map.flatMap (paint start (start + pages * efiPageSize) type) :=
    markLoop_eq hp htop [] fwMaxRegions h.tiled rfl (Nat.le_refl _) (by
      rw [List.nil_append, hcount]
      exact hroom)
  have halign := Tiled.aligned h.tiled rfl
  have htile : ∀ r ∈ st.map, Tiled r.start (paint start (start + pages * efiPageSize) type r) r.limit :=
    fun r hr => paint_tiled hp (halign r hr) (h.tiled.bounds r hr).2.1
  have htiled : Tiled 0 (st.map.flatMap (paint start (start + pages * efiPageSize) type)) st.ramTop :=
    h.tiled.flatMap htile
  unfold Marks
  rw [regionMark_map st start type hpages (by omega)]
  rw [List.nil_append, List.nil_append, List.length_nil] at hloop
  rw [hloop]
  refine ⟨regionCoalesce_whole htop htiled, hcount ▸ length_regionCoalesce _, fun x => ?_⟩
  rw [regionCoalesce_typeAt htop htiled]
  refine (h.tiled.labelAt_flatMap (g := fun x t => if start ≤ x ∧ x < start + pages * efiPageSize then type else t)
    htile fun r hr x hx hx' => paint_typeAt hp (halign r hr) hx hx').trans ?_
  by_cases hx : start ≤ x ∧ x < start + pages * efiPageSize
  · obtain ⟨t, ht⟩ := Option.ne_none_iff_exists'.1
      (fun hn => h.tiled.labelAt_eq_none.1 hn ⟨Nat.zero_le x, Nat.lt_of_lt_of_le hx.2 hstop⟩)
    rw [ht, if_pos hx, Option.map_some, if_pos hx]
  · rw [if_neg hx]
    simp only [if_neg hx, Option.map_id']
    rfl

/-- **With two entries to spare any range of pages inside the map is marked**, and at most two regions come in
addition. -/
theorem regionMark_spec (h : Whole st.map st.ramTop) (htop : st.ramTop < 2 ^ 64)
    (hlen : st.map.length + 2 ≤ fwMaxRegions)
    (hrange : pages ≠ 0 → start % efiPageSize = 0 ∧ start + pages * efiPageSize ≤ st.ramTop) :
    Whole (regionMark st start pages type).map st.ramTop ∧
      (regionMark st start pages type).map.length ≤ st.map.length + 2 ∧
      Marks st.map (regionMark st start pages type).map start (start + pages * efiPageSize) type := by
  by_cases hpages : pages = 0
  · have hmap : (regionMark st start pages type).map = regionCoalesce st.map := by
      show regionCoalesce (if pages = 0 then st.map else _) = _
      rw [if_pos hpages]
    rw [hmap]
    refine ⟨regionCoalesce_whole htop h.tiled,
      Nat.le_trans (length_regionCoalesce _) (Nat.le_add_right _ 2), fun x => ?_⟩
    rw [regionCoalesce_typeAt htop h.tiled, hpages, Nat.zero_mul, if_neg (by omega)]
  · obtain ⟨hstart, hstop⟩ := hrange hpages
    have hlo : cuts st.map start ≤ 1 := Tiled.cuts_le h.tiled
    have hhi : cuts st.map (start + pages * efiPageSize) ≤ 1 := Tiled.cuts_le h.tiled
    obtain ⟨hwhole, hcount, hmarks⟩ := regionMark_of_room type h htop hpages hstart hstop
      (Tiled.room h.tiled hlen)
    exact ⟨hwhole, by omega, hmarks⟩

end WuBuOS.Firmware
