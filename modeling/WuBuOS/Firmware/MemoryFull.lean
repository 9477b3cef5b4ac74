import WuBuOS.Firmware.MemoryMap

/-!
# The table of regions when it is full

`region_insert` drops the entry when the table has no room, but `region_mark` has cut the region in front of it, or
goes on to cut it.  So the rest of that region is in the map no more.  A full table stays full, and its regions only
get shorter (`Shrunk`); what has been lost stays lost (`markLoop_lost`).
-/

namespace WuBuOS.Firmware

open Tiling

variable {a b x start stop fuel i top : Nat} {type : MemoryType} {r s : Region} {m m' m'' rest pre post : List Region}

/-! ## A full table -/

/-- Every region of the second table is one of the first, or its beginning. -/
structure Shrunk (m m' : List Region) : Prop where
  length : m'.length = m.length
  sub : ∀ s ∈ m', ∃ r ∈ m, s.start = r.start ∧ s.pages ≤ r.pages

theorem Shrunk.refl (m : List Region) : Shrunk m m := ⟨rfl, fun s hs => ⟨s, hs, rfl, Nat.le_refl _⟩⟩

theorem Shrunk.trans (h : Shrunk m m') (h' : Shrunk m' m'') : Shrunk m m'' where
  length := h'.length.trans h.length
  sub t ht := by
    obtain ⟨s, hs, hst, hsp⟩ := h'.sub t ht
    obtain ⟨r, hr, hrt, hrp⟩ := h.sub s hs
    exact ⟨r, hr, hst.trans hrt, Nat.le_trans hsp hrp⟩

theorem Shrunk.typeAt_none (h : Shrunk m m') (hx : typeAt m x = none) : typeAt m' x = none := by
  rw [typeAt, labelAt_eq_none] at hx ⊢
  intro s hs hsx
  obtain ⟨r, hr, hstart, hpages⟩ := h.sub s hs
  have hlim : s.limit ≤ r.limit := by
    rw [Region.limit, Region.limit, hstart]
    exact Nat.add_le_add_left (Nat.mul_le_mul_right _ hpages) _
  exact hx r hr ⟨hstart ▸ hsx.1, Nat.lt_of_lt_of_le hsx.2 hlim⟩

theorem entry_of_lt (hi : i < m.length) : entry m i = m[i] := by
  rw [entry, List.getD_eq_getElem?_getD, List.getElem?_eq_getElem hi]
  rfl

/-- One region is cut. -/
theorem Shrunk.modify {f : Region → Region} (hstart : (f (entry m i)).start = (entry m i).start)
    (hpages : (f (entry m i)).pages ≤ (entry m i).pages) : Shrunk m (m.modify i f) where
  length := List.length_modify ..
  sub s hs := by
    obtain ⟨j, hj, rfl⟩ := List.mem_iff_getElem.1 hs
    rw [List.length_modify] at hj
    rw [List.getElem_modify]
    split
    · rename_i hij
      subst hij
      rw [entry_of_lt hj] at hstart hpages
      exact ⟨m[i], List.getElem_mem hj, hstart, hpages⟩
    · exact ⟨m[j], List.getElem_mem hj, rfl, Nat.le_refl _⟩

/-- Every region starts in the memory, and is no larger than it. -/
def Bounded (top : Nat) (m : List Region) : Prop := ∀ r ∈ m, r.start ≤ top ∧ r.pages * efiPageSize ≤ top

theorem Shrunk.bounded (h : Shrunk m m') (hm : Bounded top m) : Bounded top m' := fun s hs => by
  obtain ⟨r, hr, hstart, hpages⟩ := h.sub s hs
  obtain ⟨hlo, hsize⟩ := hm r hr
  exact ⟨hstart ▸ hlo, Nat.le_trans (Nat.mul_le_mul_right _ hpages) hsize⟩

theorem Tiled.bounded (h : Tiled a m top) : Bounded top m := fun r hr => by
  obtain ⟨-, hlt, hle⟩ := Tiles.bounds h r hr
  unfold Region.limit at hlt hle
  exact ⟨by omega, by omega⟩

theorem Bounded.at_entry (h : Bounded top m) (i : Nat) :
    (entry m i).start ≤ top ∧ (entry m i).pages * efiPageSize ≤ top := by
  by_cases hi : i < m.length
  · rw [entry_of_lt hi]
    exact h _ (List.getElem_mem hi)
  · rw [entry, List.getD_eq_getElem?_getD, List.getElem?_eq_none (by omega)]
    exact ⟨Nat.zero_le _, by simp⟩

theorem regionInsert_full {idx pages : Nat} (hfull : fwMaxRegions ≤ m.length) :
    regionInsert m idx start pages type = m := if_pos hfull

theorem cut_le {rs c pages : Nat} (hrs : rs ≤ c) (hc : c ≤ rs + pages * efiPageSize)
    (hlim : rs + pages * efiPageSize < 2 ^ 64) : sub64 c rs / efiPageSize ≤ pages := by
  rw [sub64_eq hrs (by omega)]
  exact Nat.div_le_of_le_mul (by rw [Nat.mul_comm]; omega)

theorem markRest_shrunk {ce : Nat} (rs : Nat) (type : MemoryType) (hfull : fwMaxRegions ≤ m.length) (hce : rs ≤ ce)
    (hlim : rs + (entry m i).pages * efiPageSize < 2 ^ 64) :
    Shrunk m (markRest ce type m i rs (rs + (entry m i).pages * efiPageSize)).1 := by
  unfold markRest
  have hcut : Shrunk m (if ce < rs + (entry m i).pages * efiPageSize then
      tailSplit m i rs ce (rs + (entry m i).pages * efiPageSize) else m) := by
    split
    · rename_i htail
      unfold tailSplit
      rw [regionInsert_full hfull]
      exact .modify rfl (cut_le hce (Nat.le_of_lt htail) hlim)
    · exact .refl m
  exact hcut.trans (.modify rfl (Nat.le_refl _))

variable (hb : 2 * top < 2 ^ 64)

include hb

theorem Bounded.stop_entry (h : Bounded top m) (i : Nat) :
    (entry m i).stop = (entry m i).start + (entry m i).pages * efiPageSize := by
  obtain ⟨hlo, hsize⟩ := h.at_entry i
  have hlim : (entry m i).limit < 2 ^ 64 := by
    unfold Region.limit
    omega
  exact stop_eq hlim

/-- In a full table the head is cut off, and the rest is not put behind it. -/
theorem markEntry_head_shrunk (type : MemoryType) (hfull : fwMaxRegions ≤ m.length) (hm : Bounded top m)
    (hss : start < stop) (hstart : start ≤ top) (hhead : (entry m i).start < start)
    (hmeet : start < (entry m i).start + (entry m i).pages * efiPageSize) :
    Shrunk m (m.modify i fun r => { r with pages := sub64 start (entry m i).start / efiPageSize }) ∧
      Shrunk (m.modify i fun r => { r with pages := sub64 start (entry m i).start / efiPageSize })
        (markEntry start stop type m i).1 := by
  obtain ⟨hlo, hsize⟩ := hm.at_entry i
  simp only [markEntry, hm.stop_entry hb i]
  rw [if_neg (by omega)]
  simp only [if_pos hhead, headSplit]
  rw [regionInsert_full (by rwa [List.length_modify])]
  have hcut : Shrunk m (m.modify i fun r => { r with pages := sub64 start (entry m i).start / efiPageSize }) :=
    .modify rfl (cut_le (Nat.le_of_lt hhead) (by omega) (by omega))
  refine ⟨hcut, ?_⟩
  generalize m.modify i (fun r => { r with pages := sub64 start (entry m i).start / efiPageSize }) = m1 at hcut
  obtain ⟨-, hnext⟩ := (hcut.bounded hm).at_entry (i + 1)
  have hend : add64 start (mul64 (entry m1 (i + 1)).pages efiPageSize) =
      start + (entry m1 (i + 1)).pages * efiPageSize := by
    rw [mul64_eq (by omega), add64_eq (by omega)]
  rw [hend]
  refine markRest_shrunk start type (hcut.length ▸ hfull) ?_ (by omega)
  split <;> omega

theorem markEntry_shrunk (type : MemoryType) (hfull : fwMaxRegions ≤ m.length) (hm : Bounded top m)
    (hss : start < stop) (hstart : start ≤ top) (i : Nat) : Shrunk m (markEntry start stop type m i).1 := by
  by_cases hmeet : stop ≤ (entry m i).start ∨ (entry m i).start + (entry m i).pages * efiPageSize ≤ start
  · simp only [markEntry, hm.stop_entry hb i]
    rw [if_pos hmeet]
    exact .refl m
  by_cases hhead : (entry m i).start < start
  · obtain ⟨hcut, hrest⟩ := markEntry_head_shrunk hb type hfull hm hss hstart hhead (by omega)
    exact hcut.trans hrest
  · obtain ⟨hlo, hsize⟩ := hm.at_entry i
    simp only [markEntry, hm.stop_entry hb i]
    rw [if_neg hmeet]
    simp only [if_neg hhead, Nat.lt_irrefl, if_false]
    refine markRest_shrunk _ type hfull ?_ (by omega)
    split
    · omega
    · exact Nat.le_add_right _ _

/-- **A full table only shrinks.** -/
theorem markLoop_shrunk (type : MemoryType) (hss : start < stop) (hstart : start ≤ top) : ∀ (fuel : Nat)
    {m : List Region} (i : Nat), fwMaxRegions ≤ m.length → Bounded top m → Shrunk m (markLoop start stop type fuel m i)
  | 0, m, _, _, _ => .refl m
  | fuel + 1, m, i, hfull, hm => by
    rw [markLoop]
    split
    · have hentry := markEntry_shrunk hb type hfull hm hss hstart i
      exact hentry.trans (markLoop_shrunk type hss hstart fuel _ (hentry.length ▸ hfull) (hentry.bounded hm))
    · exact .refl m

/-! ## What is lost -/

omit hb

/-- Where a region of the map has been cut off, nothing is left. -/
theorem Tiled.typeAt_cut (h : Tiled a (pre ++ r :: post) b) (hs : s.limit ≤ x) (hlo : r.start ≤ x) (hhi : x < r.limit) :
    typeAt (pre ++ s :: post) x = none := by
  obtain ⟨_, hpre, rfl, -, hpost⟩ := tiles_append.1 h
  rw [typeAt, labelAt_eq_none]
  intro t ht htx
  rcases List.mem_append.1 ht with ht | ht
  · have hle := (hpre.bounds t ht).2.2
    omega
  · rcases List.mem_cons.1 ht with rfl | ht
    · omega
    · have hle := (hpost.bounds t ht).1
      omega

/-- The tail is cut off. -/
theorem markRest_lost (hp : PageRange start stop) (type : MemoryType) (h : Tiled a (pre ++ r :: post) b) (hb : b < 2 ^ 64)
    (hr : r.start % efiPageSize = 0) (hfull : fwMaxRegions ≤ (pre ++ r :: post).length) (hlo : r.start ≤ stop)
    (hhi : stop < r.limit) :
    typeAt (markRest stop type (pre ++ r :: post) pre.length r.start r.limit).1 stop = none := by
  have hlim := (h.bounds r (List.mem_append_right _ List.mem_cons_self)).2.2
  have hcut : r.start + (stop - r.start) / efiPageSize * efiPageSize = stop := pages_mul hr hp.stops hlo
  unfold markRest
  simp only [if_pos hhi, tailSplit]
  rw [regionInsert_full hfull, modify_append, modify_append, sub64_eq hlo (by omega)]
  exact h.typeAt_cut (Nat.le_of_eq hcut) hlo hhi

/-- The region at the index starts on a page and ends below the top. -/
theorem Tiled.middle (h : Tiled 0 (pre ++ r :: post) top) : r.start % efiPageSize = 0 ∧ r.limit ≤ top :=
  have hmem : r ∈ pre ++ r :: post := List.mem_append_right _ List.mem_cons_self
  ⟨h.aligned rfl r hmem, (h.bounds r hmem).2.2⟩

/-- An address is in no region, and there is no room for it. -/
def LosesOne (top : Nat) (map : List Region) : Prop :=
  ∃ x < top, typeAt map x = none ∧ fwMaxRegions ≤ map.length ∧ Bounded top map

/-- The regions with the head of one split off. -/
theorem tiled_afterHead (hp : PageRange start stop) (h : Tiled 0 (pre ++ r :: post) top) (hr : r.start % efiPageSize = 0)
    (hhead : r.start < start) (hin : start < r.limit) : Tiled 0 (pre ++ [before start r] ++ afterHead start r :: post) top := by
  obtain ⟨a, hpre, rfl, hlt, hpost⟩ := tiles_append.1 h
  have hbefore := before_limit hp hr (Nat.le_of_lt hhead)
  have hlimit := afterHead_limit hp hr (Nat.le_of_lt hin)
  rw [← List.append_cons]
  refine tiles_append.2 ⟨_, hpre, rfl, ?_, hbefore.symm, ?_, ?_⟩
  · rwa [hbefore]
  · rw [hbefore, hlimit]
    exact hin
  · rwa [hlimit]

/-- There is room for the head of a region, but not for its tail. -/
theorem markEntry_lost_tail (hp : PageRange start stop) (type : MemoryType) (h : Tiled 0 (pre ++ r :: post) top)
    (hb : 2 * top < 2 ^ 64) (hroom : (pre ++ r :: post).length < fwMaxRegions)
    (hfull : fwMaxRegions < (pre ++ r :: post).length + 2) (hhead : r.start < start) (htail : stop < r.limit) :
    LosesOne top (markEntry start stop type (pre ++ r :: post) pre.length).1 := by
  have hss := hp.lt
  obtain ⟨hr, hle⟩ := h.middle
  have hlimit := afterHead_limit hp hr (show start ≤ r.limit by omega)
  have hlen : (pre ++ [before start r]).length = pre.length + 1 := List.length_append
  have htiled := tiled_afterHead hp h hr hhead (Nat.lt_trans hss htail)
  have hfull' : fwMaxRegions ≤ (pre ++ [before start r] ++ afterHead start r :: post).length := by
    simp only [List.length_append, List.length_cons, List.length_nil] at hfull ⊢
    omega
  have hlost := markRest_lost (r := afterHead start r) hp type htiled (by omega) hp.starts hfull' (Nat.le_of_lt hss)
    (by rwa [hlimit])
  have hentry : entry (pre ++ [before start r] ++ afterHead start r :: post) (pre ++ [before start r]).length =
      afterHead start r := entry_append
  have hshrunk := markRest_shrunk (i := (pre ++ [before start r]).length) start type hfull' (Nat.le_of_lt hss)
    (by rw [hentry]; show (afterHead start r).limit < _; omega)
  rw [hentry] at hshrunk
  change Shrunk _ (markRest stop type _ _ _ (afterHead start r).limit).1 at hshrunk
  have hmeet : ¬(stop ≤ r.start ∨ r.limit ≤ start) := by omega
  rw [markEntry_head type pre post hp hr hmeet (by omega) hhead hroom, if_pos htail, List.append_cons, ← hlen, ← hlimit]
  exact ⟨stop, by omega, hlost, hshrunk.length ▸ hfull', hshrunk.bounded (Tiled.bounded htiled)⟩

/-- There is no room for any part. -/
theorem markEntry_lost_full (hp : PageRange start stop) (type : MemoryType) (h : Tiled 0 (pre ++ r :: post) top)
    (hb : 2 * top < 2 ^ 64) (hstop : stop ≤ top) (hmeet : ¬(stop ≤ r.start ∨ r.limit ≤ start))
    (hfull : fwMaxRegions ≤ (pre ++ r :: post).length) (hcut : r.start < start ∨ stop < r.limit) :
    LosesOne top (markEntry start stop type (pre ++ r :: post) pre.length).1 := by
  have hss := hp.lt
  obtain ⟨hr, hle⟩ := h.middle
  have hbounded : Bounded top (pre ++ r :: post) := Tiled.bounded h
  have hshrunk := markEntry_shrunk hb type hfull hbounded hss (by omega) pre.length
  by_cases hhead : r.start < start
  · -- The rest of the region is not put behind its head.
    have hrest := (markEntry_head_shrunk (i := pre.length) hb type hfull hbounded hss (by omega)
      (by rwa [entry_append]) (by rw [entry_append]; show start < r.limit; omega)).2
    rw [entry_append, modify_append] at hrest
    refine ⟨start, by omega, hrest.typeAt_none ?_, hshrunk.length ▸ hfull, hshrunk.bounded hbounded⟩
    refine Tiled.typeAt_cut h (Nat.le_of_eq ?_) (Nat.le_of_lt hhead) (by omega)
    rw [sub64_eq (Nat.le_of_lt hhead) (by omega)]
    exact before_limit hp hr (Nat.le_of_lt hhead)
  · have htail := hcut.resolve_left hhead
    refine ⟨stop, by omega, ?_, hshrunk.length ▸ hfull, hshrunk.bounded hbounded⟩
    rw [markEntry_no_head type pre post hmeet (by omega) hhead, if_pos htail]
    exact markRest_lost hp type h (by omega) hr hfull (by omega) htail

/-- **A region that is cut without the room for its parts loses some.** -/
theorem markEntry_lost (hp : PageRange start stop) (type : MemoryType) (h : Tiled 0 (pre ++ r :: post) top)
    (hb : 2 * top < 2 ^ 64) (hstop : stop ≤ top) (hmeet : ¬(stop ≤ r.start ∨ r.limit ≤ start))
    (hlen : (pre ++ r :: post).length ≤ fwMaxRegions)
    (hfull : fwMaxRegions < (pre ++ r :: post).length + splits start stop r) :
    LosesOne top (markEntry start stop type (pre ++ r :: post) pre.length).1 := by
  unfold splits at hfull
  by_cases hroom : (pre ++ r :: post).length < fwMaxRegions
  · have hhead : r.start < start := by
      by_contra hhead
      rw [if_neg hhead] at hfull
      split at hfull <;> omega
    have htail : stop < r.limit := by
      by_contra htail
      rw [if_pos hhead, if_neg htail] at hfull
      omega
    rw [if_pos hhead, if_pos htail] at hfull
    exact markEntry_lost_tail hp type h hb hroom hfull hhead htail
  · refine markEntry_lost_full hp type h hb hstop hmeet (Nat.le_of_not_lt hroom) ?_
    by_contra hwhole
    obtain ⟨hhead, htail⟩ := not_or.1 hwhole
    rw [if_neg hhead, if_neg htail] at hfull
    omega

/-- **Without the room for all parts an address is lost.**  The induction is on the regions behind the index: up to
the one that is cut without room, all is as in `markLoop_eq`, and behind it the table is full. -/
theorem markLoop_lost (hp : PageRange start stop) (type : MemoryType) (hb : 2 * top < 2 ^ 64) (hstop : stop ≤ top) :
    ∀ {rest : List Region} (pre : List Region) (fuel : Nat), Tiled 0 (pre ++ rest) top →
      fwMaxRegions ≤ fuel + pre.length → (pre ++ rest).length ≤ fwMaxRegions →
      fwMaxRegions < (pre ++ rest.flatMap (paint start stop type)).length →
      ∃ x < top, typeAt (markLoop start stop type fuel (pre ++ rest) pre.length) x = none ∧
        Bounded top (markLoop start stop type fuel (pre ++ rest) pre.length)
  | [], pre, fuel, _, _, hlen, hfull => absurd hlen (Nat.not_le_of_lt hfull)
  | r :: rest, pre, fuel, h, hfuel, hlen, hfull => by
    obtain ⟨hr, hle⟩ := h.middle
    by_cases hroom : (pre ++ paint start stop type r ++ rest).length ≤ fwMaxRegions
    · obtain ⟨n, hn, he⟩ := markLoop_paint type rest hp hr (by omega) hfuel hroom
      have htiled : Tiled 0 (pre ++ paint start stop type r ++ rest) top := by
        obtain ⟨a, hpre, rfl, hlt, hrest⟩ := tiles_append.1 h
        exact tiles_append.2 ⟨_, tiles_append.2 ⟨_, hpre, paint_tiled hp hr hlt⟩, hrest⟩
      rw [he]
      refine markLoop_lost hp type hb hstop _ n htiled hn hroom ?_
      rwa [List.append_assoc, ← List.flatMap_cons]
    · have hmeet : ¬(stop ≤ r.start ∨ r.limit ≤ start) := fun hskip => by
        rw [paint, if_pos hskip, ← List.append_cons] at hroom
        exact hroom hlen
      rw [paint, if_neg hmeet] at hroom
      have hcount := length_parts start stop type r
      obtain ⟨x, hx, hlost, hfull', hbounded⟩ := markEntry_lost hp type h hb hstop hmeet hlen (by
        simp only [List.length_append, List.length_cons] at hroom ⊢
        omega)
      simp only [List.length_append, List.length_cons] at hlen
      obtain ⟨fuel, rfl⟩ : ∃ n, fuel = n + 1 := ⟨fuel - 1, by omega⟩
      rw [markLoop, if_pos (by simp)]
      have hshrunk := markLoop_shrunk hb type hp.lt (by have := hp.lt; omega) fuel
        (markEntry start stop type (pre ++ r :: rest) pre.length).2 hfull' hbounded
      exact ⟨x, hx, hshrunk.typeAt_none hlost, hshrunk.bounded hbounded⟩

theorem coalesceFrom_none (hm : ∀ s ∈ r :: rest, s.limit < 2 ^ 64) (hx : typeAt (r :: rest) x = none) :
    typeAt (coalesceFrom r rest) x = none := by
  fun_induction coalesceFrom r rest with
  | case1 => exact hx
  | case2 r s rest hjoin ih =>
    simp only [List.forall_mem_cons] at hm
    obtain ⟨hr, hs, hrest⟩ := hm
    have hmid : r.limit = s.start := (stop_eq hr).symm.trans hjoin.2
    have hlim := limit_joined hmid hs
    refine ih ?_ ?_
    · simpa [hlim] using ⟨hs, hrest⟩
    · rw [typeAt, labelAt_eq_none] at hx ⊢
      simp only [List.forall_mem_cons] at hx
      obtain ⟨hxr, hxs, hx⟩ := hx
      refine List.forall_mem_cons.2 ⟨fun hxj => ?_, hx⟩
      rw [hlim] at hxj
      have hlo : r.start ≤ x := hxj.1
      omega
  | case3 r s rest hne ih =>
    rw [typeAt, labelAt_cons] at hx ⊢
    split at hx
    · cases hx
    · rw [if_neg ‹_›]
      exact ih (fun t ht => hm t (List.mem_cons_of_mem r ht)) hx

theorem regionCoalesce_none (hm : ∀ s ∈ m, s.limit < 2 ^ 64) (hx : typeAt m x = none) :
    typeAt (regionCoalesce m) x = none := by
  cases m with
  | nil => exact hx
  | cons r rest => exact coalesceFrom_none hm hx

variable {st : Mem} {pages : Nat}

theorem regionMark_lost (type : MemoryType) (h : Whole st.map st.ramTop) (htop : 2 * st.ramTop < 2 ^ 64)
    (hlen : st.map.length ≤ fwMaxRegions) (hpages : pages ≠ 0) (hstart : start % efiPageSize = 0)
    (hstop : start + pages * efiPageSize ≤ st.ramTop) (hroom : ¬Room st.map start (start + pages * efiPageSize)) :
    ∃ x < st.ramTop, typeAt (regionMark st start pages type).map x = none := by
  have hp := PageRange.of_pages hpages hstart
  obtain ⟨x, hx, hlost, hbounded⟩ := markLoop_lost hp type htop hstop [] fwMaxRegions
    (show Tiled 0 ([] ++ st.map) st.ramTop from h.tiled) (Nat.le_refl _) hlen (by
      rw [List.nil_append, length_flatMap_paint hp.lt]
      exact Nat.lt_of_not_le hroom)
  rw [regionMark_map st start type hpages (by omega)]
  refine ⟨x, hx, regionCoalesce_none (fun s hs => ?_) hlost⟩
  obtain ⟨hlo, hsize⟩ := hbounded s hs
  unfold Region.limit
  omega

/-- **The table has the room for what is cut off exactly if the range is marked.** -/
theorem marks_iff (type : MemoryType) (h : Whole st.map st.ramTop) (htop : 2 * st.ramTop < 2 ^ 64)
    (hlen : st.map.length ≤ fwMaxRegions) (hpages : pages ≠ 0) (hstart : start % efiPageSize = 0)
    (hstop : start + pages * efiPageSize ≤ st.ramTop) :
    Marks st.map (regionMark st start pages type).map start (start + pages * efiPageSize) type ↔
      Room st.map start (start + pages * efiPageSize) := by
  refine ⟨fun hm => ?_, fun hroom => (regionMark_of_room type h (by omega) hpages hstart hstop hroom).2.2⟩
  by_contra hroom
  obtain ⟨x, hx, hlost⟩ := regionMark_lost type h htop hlen hpages hstart hstop hroom
  rw [hm x] at hlost
  split at hlost
  · cases hlost
  · exact h.tiled.labelAt_eq_none.1 hlost ⟨Nat.zero_le x, hx⟩

end WuBuOS.Firmware
