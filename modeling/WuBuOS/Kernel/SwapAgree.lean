import WuBuOS.Kernel.Swap

/-!
# When the swap tables agree

Of what the four tables say of each other (`Inv`) every call keeps most, whatever it is asked.  Four requests
get a wrong answer: to put out a frame that is out (the number returned is one too large), to put out an address
inside a page (it is stored as it is, and looked up by its page), an address that is out already (the search
finds the other slot), and to put out from inside a frame (the bytes come back in another place).  The tables
agree throughout exactly those runs that make none of these requests: `swap_agree_iff`.
-/

namespace WuBuOS.Swap

open Runs SlotMap
open Function (update update_of_ne update_self)

variable {s : SwapState} {outs : List Out} {o : Out} {va phys : Nat} {i : Fin swapSlots} {f : Fin frames}

/-! ## The invariant -/

/-- The tables know this frame to be out, in a slot. -/
structure Held (s : SwapState) (o : Out) (i : Fin swapSlots) (f : Fin frames) : Prop where
  slot : o.slot = i
  frame : frameIndex o.phys = some f
  owner : s.frameSlot f = i + 1
  taken : s.slots i = 1
  address : s.vaAddr i = o.va
  aligned : o.va % page = 0
  stored : ∀ k < page, s.disk (slotByte i + k) = o.contents k

/-- What the tables say of each other. -/
structure Inv (s : SwapState) (outs : List Out) : Prop where
  done : s.done = true
  mark : ∀ i, s.slots i = -1 ∧ s.vaSlot i = 0 ∨ s.slots i = 1 ∧ s.vaSlot i = i + 1
  held : ∀ o ∈ outs, ∃ i f, Held s o i f
  told : ∀ i, s.slots i = 1 → ∃ o ∈ outs, o.slot = i
  owner : ∀ f, s.frameSlot f ≠ 0 → ∃ i : Fin swapSlots, s.frameSlot f = i + 1 ∧ s.slots i = 1
  single : ∀ f f', s.frameSlot f = s.frameSlot f' → s.frameSlot f ≠ 0 → f = f'
  address : ∀ i j, s.vaSlot i ≠ 0 → s.vaSlot j ≠ 0 → s.vaAddr i = s.vaAddr j → i = j
  count : s.count.toNat = (occupied s).card

theorem inv_init (mem disk : Nat → UInt8) : Inv (slotInit (boot mem disk)) [] where
  done := rfl
  mark _ := Or.inl ⟨rfl, rfl⟩
  held _ ho := absurd ho List.not_mem_nil
  told _ hi := absurd (show (-1 : Int) = 1 from hi) (by decide)
  owner _ hf := absurd rfl hf
  single _ _ _ hf := absurd rfl hf
  address _ _ hi := absurd rfl hi
  count := by
    rw [Finset.card_eq_zero.2]
    · rfl
    · exact Finset.filter_eq_empty_iff.2 fun i _ hi => absurd (show (-1 : Int) = 1 from hi) (by decide)

theorem Inv.taken (h : Inv s outs) : s.slots i = 1 ↔ s.slots i ≠ -1 := by
  rcases h.mark i with ⟨hi, -⟩ | ⟨hi, -⟩ <;> simp [hi]

theorem Inv.vaSlot (h : Inv s outs) : s.vaSlot i ≠ 0 ↔ s.slots i = 1 := by
  rcases h.mark i with ⟨hi, hv⟩ | ⟨hi, hv⟩ <;> simp [hi, hv]

theorem slotInit_done (h : s.done = true) : slotInit s = s := by
  rw [slotInit, if_pos h]

theorem frameAddr_eq (h : frameIndex phys = some f) : frameAddr f = phys / page * page := by
  rw [frameIndex] at h
  split at h
  · cases h
  · split at h
    · cases h
      simp only [frameAddr, Vmm.physBase, page] at *
      omega
    · cases h

theorem card_insert_slot {t t' : SwapState} (hi : t.slots i ≠ 1) (ht : t'.slots = update t.slots i 1) :
    (occupied t').card = (occupied t).card + 1 := by
  have hset : occupied t' = insert i (occupied t) := by
    ext j
    simp only [occupied, Finset.mem_filter, Finset.mem_univ, true_and, Finset.mem_insert, ht]
    by_cases hj : j = i
    · simp [hj]
    · simp [hj, update_of_ne]
  rw [hset, Finset.card_insert_of_notMem (by simp [occupied, hi])]

theorem card_erase_slot {t t' : SwapState} (hi : t.slots i = 1) (ht : t'.slots = update t.slots i (-1)) :
    (occupied t').card + 1 = (occupied t).card := by
  have hset : occupied t' = (occupied t).erase i := by
    ext j
    simp only [occupied, Finset.mem_filter, Finset.mem_univ, true_and, Finset.mem_erase, ht]
    by_cases hj : j = i
    · simp [hj]
    · simp [hj, update_of_ne]
  rw [hset, Finset.card_erase_add_one (by simp [occupied, hi])]

theorem card_occupied_le (s : SwapState) : (occupied s).card ≤ 512 := by
  have h := Finset.card_le_univ (occupied s)
  rwa [Fintype.card_fin] at h

/-- The bytes of two slots are apart. -/
theorem slotByte_apart {j : Fin swapSlots} (h : j ≠ i) {k : Nat} (hk : k < page) :
    slotByte j + k < slotByte i ∨ slotByte i + swapPageSecs * sectorBytes ≤ slotByte j + k := by
  simp only [slotByte, swapPageSecs, sectorBytes, page] at *
  omega

/-! ## The calls keep the invariant -/

theorem putOut_disk (s : SwapState) (va phys : Nat) (idx : Fin frames) (slot : Fin swapSlots) :
    (putOut s va phys idx slot).disk =
      Bytes.write s.disk (slotByte slot) (swapPageSecs * sectorBytes) fun i => s.mem (phys + i) := rfl

theorem takeIn_mem (s : SwapState) (va : Nat) (i : Fin swapSlots) (f : Fin frames) : (takeIn s va i f).mem =
      Bytes.write s.mem (frameAddr f) (swapPageSecs * sectorBytes) fun k => s.disk (slotByte i + k) := rfl

/-- **A frame goes out.** -/
theorem Inv.putOut {idx : Fin frames} {slot : Fin swapSlots} {contents : Nat → UInt8} (h : Inv s outs)
    (hidx : frameIndex phys = some idx) (hzero : s.frameSlot idx = 0) (hfree : s.slots slot = -1)
    (hva : va % page = 0) (hnew : ∀ i, s.vaSlot i ≠ 0 → s.vaAddr i ≠ va)
    (hbytes : ∀ k < page, s.mem (phys + k) = contents k) :
    Inv (putOut s va phys idx slot) (⟨va, phys, slot, contents⟩ :: outs) where
  done := h.done
  mark j := by
    by_cases hj : j = slot
    · subst hj
      exact Or.inr ⟨update_self .., update_self ..⟩
    · simpa only [Swap.putOut, update_of_ne hj] using h.mark j
  held o ho := by
    rcases List.mem_cons.1 ho with rfl | ho
    · refine ⟨slot, idx, rfl, hidx, update_self .., update_self .., update_self .., hva, fun k hk => ?_⟩
      rw [putOut_disk, Bytes.write_inside (show k < swapPageSecs * sectorBytes from hk)]
      exact hbytes k hk
    · obtain ⟨i, f, hheld⟩ := h.held o ho
      have hi : i ≠ slot := by
        rintro rfl
        rw [hheld.taken] at hfree
        exact absurd hfree (by decide)
      have hf : f ≠ idx := by
        rintro rfl
        rw [hheld.owner] at hzero
        exact absurd hzero (Nat.succ_ne_zero _)
      refine ⟨i, f, hheld.slot, hheld.frame, ?_, ?_, ?_, hheld.aligned, fun k hk => ?_⟩
      · exact (update_of_ne hf ..).trans hheld.owner
      · exact (update_of_ne hi ..).trans hheld.taken
      · exact (update_of_ne hi ..).trans hheld.address
      · rw [putOut_disk, Bytes.write_outside (slotByte_apart hi hk)]
        exact hheld.stored k hk
  told j hj := by
    by_cases hjs : j = slot
    · exact ⟨_, List.mem_cons_self, by rw [hjs]⟩
    · obtain ⟨o, ho, hslot⟩ := h.told j ((update_of_ne hjs ..).symm.trans hj)
      exact ⟨o, List.mem_cons_of_mem _ ho, hslot⟩
  owner f hf := by
    by_cases hfi : f = idx
    · subst hfi
      exact ⟨slot, update_self .., update_self ..⟩
    · have hsame : (Swap.putOut s va phys idx slot).frameSlot f = s.frameSlot f := update_of_ne hfi ..
      rw [hsame] at hf ⊢
      obtain ⟨i, hi, htaken⟩ := h.owner f hf
      refine ⟨i, hi, ?_⟩
      have hne : i ≠ slot := by
        rintro rfl
        rw [htaken] at hfree
        exact absurd hfree (by decide)
      exact (update_of_ne hne ..).trans htaken
  single f f' heq hne := by
    have hother : ∀ g : Fin frames, s.frameSlot g ≠ slot + 1 := by
      intro g hg
      obtain ⟨i, hi, htaken⟩ := h.owner g (by rw [hg]; exact Nat.succ_ne_zero _)
      obtain rfl : i = slot := Fin.ext (by omega)
      rw [htaken] at hfree
      exact absurd hfree (by decide)
    simp only [Swap.putOut, Function.update_apply] at heq hne
    split at heq
    · split at heq
      · rename_i hf hf'
        rw [hf, hf']
      · exact absurd heq.symm (hother f')
    · split at heq
      · exact absurd heq (hother f)
      · rename_i hf hf'
        rw [if_neg hf] at hne
        exact h.single f f' heq hne
  address i j hi hj heq := by
    simp only [Swap.putOut, Function.update_apply] at hi hj heq
    split at heq
    · split at heq
      · rename_i hi' hj'
        rw [hi', hj']
      · rename_i hj'
        rw [if_neg hj'] at hj
        exact absurd heq.symm (hnew j hj)
    · rename_i hi'
      rw [if_neg hi'] at hi
      split at heq
      · exact absurd heq (hnew i hi)
      · rename_i hj'
        rw [if_neg hj'] at hj
        exact h.address i j hi hj heq
  count := by
    rw [card_insert_slot (t := s) (i := slot) (by rw [hfree]; decide) rfl, ← h.count]
    have hle := card_occupied_le s
    rw [← h.count] at hle
    change (s.count + 1).toNat = _
    rw [UInt32.toNat_add]
    exact Nat.mod_eq_of_lt (by change s.count.toNat + 1 < _; omega)

/-- **A slot comes in.** -/
theorem Inv.takeIn (h : Inv s outs) (va : Nat) (hi : s.slots i = 1) (hf : s.frameSlot f = i + 1) :
    Inv (takeIn s va i f) (outs.filter fun o => o.slot ≠ i) where
  done := h.done
  mark j := by
    by_cases hj : j = i
    · subst hj
      exact Or.inl ⟨update_self .., update_self ..⟩
    · simpa only [Swap.takeIn, update_of_ne hj] using h.mark j
  held o ho := by
    obtain ⟨ho, hne⟩ := List.mem_filter.1 ho
    obtain ⟨j, g, hheld⟩ := h.held o ho
    have hj : j ≠ i := by
      rintro rfl
      exact absurd hheld.slot (of_decide_eq_true hne)
    have hg : g ≠ f := by
      rintro rfl
      rw [hheld.owner] at hf
      exact hj (Fin.ext (by omega))
    refine ⟨j, g, hheld.slot, hheld.frame, ?_, ?_, ?_, hheld.aligned, hheld.stored⟩
    · exact (update_of_ne hg ..).trans hheld.owner
    · exact (update_of_ne hj ..).trans hheld.taken
    · exact (update_of_ne hj ..).trans hheld.address
  told j hj := by
    by_cases hji : j = i
    · rw [hji] at hj
      exact absurd ((update_self ..).symm.trans hj) (by decide)
    · obtain ⟨o, ho, hslot⟩ := h.told j ((update_of_ne hji ..).symm.trans hj)
      refine ⟨o, List.mem_filter.2 ⟨ho, decide_eq_true fun heq => hji (Fin.ext ?_)⟩, hslot⟩
      rw [hslot] at heq
      exact Int.ofNat.inj heq
  owner g hg := by
    by_cases hgf : g = f
    · rw [hgf] at hg
      exact absurd (update_self ..) hg
    · have hsame : (Swap.takeIn s va i f).frameSlot g = s.frameSlot g := update_of_ne hgf ..
      rw [hsame] at hg ⊢
      obtain ⟨j, hj, htaken⟩ := h.owner g hg
      refine ⟨j, hj, ?_⟩
      have hne : j ≠ i := by
        rintro rfl
        exact hgf (h.single g f (hj.trans hf.symm) hg)
      exact (update_of_ne hne ..).trans htaken
  single g g' heq hne := by
    simp only [Swap.takeIn, Function.update_apply] at heq hne
    split at heq
    · rename_i hg
      exact absurd rfl (by rwa [if_pos hg] at hne)
    · rename_i hg
      rw [if_neg hg] at hne
      split at heq
      · exact absurd heq hne
      · exact h.single g g' heq hne
  address j k hj hk heq := by
    simp only [Swap.takeIn, Function.update_apply] at hj hk heq
    by_cases hji : j = i
    · exact absurd rfl (by rwa [if_pos hji] at hj)
    · by_cases hki : k = i
      · exact absurd rfl (by rwa [if_pos hki] at hk)
      · rw [if_neg hji] at hj heq
        rw [if_neg hki] at hk heq
        exact h.address j k hj hk heq
  count := by
    have hcard : (occupied (Swap.takeIn s va i f)).card + 1 = (occupied s).card := card_erase_slot hi rfl
    have hcount := h.count
    change (s.count - 1).toNat = _
    rw [UInt32.toNat_sub_of_le _ _ (by rw [UInt32.le_iff_toNat_le]; change 1 ≤ _; omega)]
    change s.count.toNat - 1 = _
    omega

/-! ## What the invariant says -/

theorem Inv.vaSlotOf_eq (h : Inv s outs) (hi : s.vaSlot i ≠ 0) {a : Nat} (ha : s.vaAddr i = a / page * page) :
    vaSlotOf s a = (i : Nat) := by
  have hfind : (List.finRange swapSlots).find? (fun i => decide (s.vaSlot i ≠ 0 ∧ s.vaAddr i = a / page * page)) =
      some i := by
    refine find_of_unique ?_ fun j hj => ?_
    · rw [decide_eq_true_eq]
      exact ⟨hi, ha⟩
    · rw [decide_eq_true_eq] at hj
      exact h.address j i hj.1 hi (hj.2.trans ha.symm)
  unfold vaSlotOf
  rw [hfind]

theorem Inv.swapIn_eq (h : Inv s outs) (va : Nat) (hi : s.slots i = 1) (hf : s.frameSlot f = i + 1) :
    swapIn s va i = (Swap.takeIn s va i f, 0) := by
  have hfind : ownerOf s i = some f := by
    refine find_of_unique (decide_eq_true hf) fun g hg => ?_
    have hg := of_decide_eq_true hg
    exact h.single g f (hg.trans hf.symm) (by rw [hg]; exact Nat.succ_ne_zero _)
  rw [swapIn]
  simp only [slotInit_done h.done, Fin.is_lt, dite_true, Fin.eta, hi, hfind]
  rfl

/-- **The tables agree about every frame that is out.** -/
theorem Inv.tracks (h : Inv s outs) (ho : o ∈ outs) : Tracks s o := by
  obtain ⟨i, f, hheld⟩ := h.held o ho
  refine ⟨?_, fun a ha => ?_, fun va => ?_⟩
  · rw [slotOf, hheld.frame, hheld.slot]
    simp [hheld.owner]
  · rw [hheld.slot]
    refine h.vaSlotOf_eq (h.vaSlot.2 hheld.taken) ?_
    rw [hheld.address, ha]
    exact (Nat.div_mul_cancel (Nat.dvd_of_mod_eq_zero hheld.aligned)).symm
  · rw [hheld.slot, Int.toNat_natCast, h.swapIn_eq va hheld.taken hheld.owner]
    refine ⟨rfl, fun k hk => ?_⟩
    rw [← hheld.stored k hk, ← frameAddr_eq hheld.frame, takeIn_mem,
      Bytes.write_inside (show k < swapPageSecs * sectorBytes from hk)]

theorem Inv.agree {h : History} (hinv : Inv h.state h.outs) : Agree h :=
  ⟨fun _ ho => hinv.tracks ho, hinv.single, hinv.count⟩

/-! ## Runs -/

/-- The program has just started, or the tables keep the invariant. -/
def Ok (h : History) : Prop := Inv h.state h.outs ∨ ∃ mem disk, h.state = boot mem disk ∧ h.outs = []

variable {h : History}

theorem Ok.inv (hok : Ok h) : Inv (slotInit h.state) h.outs := by
  rcases hok with hinv | ⟨mem, disk, hboot, houts⟩
  · rwa [slotInit_done hinv.done]
  · rw [hboot, houts]
    exact inv_init mem disk

theorem Ok.agree (hok : Ok h) : Agree h := by
  rcases hok with hinv | ⟨mem, disk, hboot, houts⟩
  · exact hinv.agree
  · have hfresh := (inv_init mem disk).count
    refine ⟨by simp [houts], by simp [hboot, boot], ?_⟩
    rw [hboot, Finset.card_eq_zero.2]
    · rfl
    · exact Finset.filter_eq_empty_iff.2 fun i _ hi => absurd (show (0 : Int) = 1 from hi) (by decide)

theorem Inv.store (hinv : Inv s outs) (mem : Nat → UInt8) : Inv { s with mem := mem } outs where
  done := hinv.done
  mark := hinv.mark
  held o ho := by
    obtain ⟨i, f, hheld⟩ := hinv.held o ho
    exact ⟨i, f, hheld.slot, hheld.frame, hheld.owner, hheld.taken, hheld.address, hheld.aligned, hheld.stored⟩
  told := hinv.told
  owner := hinv.owner
  single := hinv.single
  address := hinv.address
  count := hinv.count

theorem freeSlot_some {slot : Fin swapSlots} (hfree : freeSlot s = some slot) : s.slots slot = -1 := by
  unfold freeSlot at hfree
  have hslot := List.find?_some hfree
  rwa [decide_eq_true_eq] at hslot

theorem ownerOf_some (howner : ownerOf s i = some f) : s.frameSlot f = i + 1 := by
  unfold ownerOf at howner
  have hframe := List.find?_some howner
  rwa [decide_eq_true_eq] at hframe

/-- What `wubu_swap_out` can do. -/
theorem swapOut_cases (s : SwapState) (va phys : Nat) : (swapOut s va phys = (slotInit s, -1) ∧
        ∀ idx, frameIndex phys = some idx → (slotInit s).frameSlot idx = 0 ∧ freeSlot (slotInit s) = none) ∨
      ∃ idx, frameIndex phys = some idx ∧
        (((slotInit s).frameSlot idx ≠ 0 ∧ swapOut s va phys = (slotInit s, ((slotInit s).frameSlot idx : Int))) ∨
          ((slotInit s).frameSlot idx = 0 ∧ ∃ slot, freeSlot (slotInit s) = some slot ∧
            swapOut s va phys = (putOut (slotInit s) va phys idx slot, ((slot : Nat) : Int)))) := by
  unfold swapOut
  cases hidx : frameIndex phys with
  | none => exact Or.inl ⟨rfl, fun idx h => by cases h⟩
  | some idx =>
    by_cases hzero : (slotInit s).frameSlot idx = 0
    · cases hfree : freeSlot (slotInit s) with
      | none =>
        refine Or.inl ⟨by simp only [hzero, hfree, ne_eq, not_true_eq_false, if_false], fun idx' h => ?_⟩
        cases h
        exact ⟨hzero, rfl⟩
      | some slot =>
        exact Or.inr ⟨idx, rfl, Or.inr ⟨hzero, slot, rfl,
          by simp only [hzero, hfree, ne_eq, not_true_eq_false, if_false]⟩⟩
    · exact Or.inr ⟨idx, rfl, Or.inl ⟨hzero, by simp only [ne_eq, hzero, not_false_eq_true, if_true]⟩⟩

/-- What `wubu_swap_in` can do. -/
theorem swapIn_cases (s : SwapState) (va slot : Nat) : swapIn s va slot = (slotInit s, -1) ∨
      ∃ (i : Fin swapSlots) (f : Fin frames), i.val = slot ∧ (slotInit s).slots i ≠ -1 ∧
        (slotInit s).frameSlot f = i + 1 ∧ swapIn s va slot = (takeIn (slotInit s) va i f, 0) := by
  unfold swapIn
  by_cases hlt : slot < swapSlots
  · by_cases hfree : (slotInit s).slots ⟨slot, hlt⟩ = -1
    · exact Or.inl (by simp only [hlt, hfree, dite_true, if_true])
    · cases howner : ownerOf (slotInit s) ⟨slot, hlt⟩ with
      | none => exact Or.inl (by simp only [hlt, hfree, howner, dite_true, if_false])
      | some f =>
        exact Or.inr ⟨⟨slot, hlt⟩, f, rfl, hfree, ownerOf_some howner,
          by simp only [hlt, hfree, howner, dite_true, if_false]⟩
  · exact Or.inl (by simp only [hlt, dite_false])

theorem slotInit_mem (s : SwapState) : (slotInit s).mem = s.mem := by
  unfold slotInit
  split <;> rfl

/-- **A plain call keeps the invariant.** -/
theorem Ok.step (hok : Ok h) {op : SwapOp} (hplain : Plain h op) : Ok (step h op) := by
  have hinv := hok.inv
  cases op with
  | store mem =>
    rcases hok with hinv | ⟨mem', disk, hboot, houts⟩
    · exact Or.inl (hinv.store mem)
    · exact Or.inr ⟨mem, disk, by simp only [Swap.step, hboot, boot], houts⟩
  | swapIn va slot =>
    rcases swapIn_cases h.state va slot with hr | ⟨i, f, rfl, hi, hf, hr⟩
    · exact Or.inl (by simpa [Swap.step, hr] using hinv)
    · refine Or.inl ?_
      simp only [Swap.step, hr, if_true]
      exact hinv.takeIn va (hinv.taken.2 hi) hf
  | out va phys =>
    rcases swapOut_cases h.state va phys with ⟨hr, -⟩ | ⟨idx, hidx, ⟨hne, -⟩ | ⟨hzero, slot, hfree, hr⟩⟩
    · exact Or.inl (by simpa [Swap.step, hr] using hinv)
    · exact absurd (hplain idx hidx).1 hne
    · obtain ⟨hva, hnew, hbytes⟩ := (hplain idx hidx).2 (by rw [hfree]; exact Option.some_ne_none slot)
      refine Or.inl ?_
      simp only [Swap.step, hr, Int.natCast_nonneg, if_true]
      exact hinv.putOut hidx hzero (freeSlot_some hfree) hva hnew fun k hk => by
        rw [slotInit_mem]
        exact hbytes k hk

/-- The address search answers with a slot of the address. -/
theorem vaSlotOf_some {a : Nat} (hs : vaSlotOf s a = (i : Nat)) : s.vaSlot i ≠ 0 ∧ s.vaAddr i = a / page * page := by
  unfold vaSlotOf at hs
  cases hf : (List.finRange swapSlots).find? fun i => decide (s.vaSlot i ≠ 0 ∧ s.vaAddr i = a / page * page) with
  | none => rw [hf] at hs; cases hs
  | some j =>
    rw [hf] at hs
    obtain rfl : j = i := Fin.ext (Int.ofNat.inj hs)
    have hfound := List.find?_some hf
    rwa [decide_eq_true_eq] at hfound

/-- **After any other call the tables do not agree.** -/
theorem Ok.plain_of_agree (hok : Ok h) {op : SwapOp} (hagree : Agree (Swap.step h op)) : Plain h op := by
  have hinv := hok.inv
  cases op with
  | store mem => trivial
  | swapIn va slot => trivial
  | out va phys =>
    intro idx hidx
    rcases swapOut_cases h.state va phys with ⟨-, hnone⟩ | ⟨idx', hidx', ⟨hne, hr⟩ | ⟨hzero, slot, hfree, hr⟩⟩
    · obtain ⟨hzero, hfree⟩ := hnone idx hidx
      exact ⟨hzero, fun h => absurd hfree h⟩
    · -- the number returned is the one in the table, and the table says one less
      simp only [Swap.step, hr, Int.natCast_nonneg, if_true] at hagree
      have htrack := (hagree.tracks _ List.mem_cons_self).frame
      simp only [slotOf, hidx', hne, ne_eq, not_false_eq_true, if_true] at htrack
      omega
    · obtain rfl : idx' = idx := Option.some.inj (hidx'.symm.trans hidx)
      simp only [Swap.step, hr, Int.natCast_nonneg, if_true] at hagree
      have htrack := hagree.tracks _ List.mem_cons_self
      have hself : (putOut (slotInit h.state) va phys idx' slot).vaAddr slot = va := update_self ..
      have hva : va % page = 0 := by
        obtain ⟨-, haddr⟩ := vaSlotOf_some (htrack.address va rfl)
        rw [hself] at haddr
        simp only [page] at *
        omega
      have hnew : ∀ i, (slotInit h.state).vaSlot i ≠ 0 → (slotInit h.state).vaAddr i ≠ va := by
        intro i hi heq
        obtain ⟨o, ho, hslot⟩ := hinv.told i (hinv.vaSlot.1 hi)
        obtain ⟨j, f, hheld⟩ := hinv.held o ho
        obtain rfl : j = i := Fin.ext (Int.ofNat.inj (hheld.slot.symm.trans hslot))
        have hother := (hagree.tracks o (List.mem_cons_of_mem _ ho)).address va (by rw [← hheld.address, heq])
        have hboth := (htrack.address va rfl).symm.trans (hother.trans hslot)
        obtain rfl : slot = j := Fin.ext (Int.ofNat.inj hboth)
        have hfree := freeSlot_some hfree
        rw [hheld.taken] at hfree
        exact absurd hfree (by decide)
      refine ⟨hzero, fun _ => ⟨hva, hnew, fun k hk => ?_⟩⟩
      have hput : Inv (putOut (slotInit h.state) va phys idx' slot)
          (⟨va, phys, slot, fun k => h.state.mem (phys + k)⟩ :: h.outs) :=
        hinv.putOut hidx hzero (freeSlot_some hfree) hva hnew fun k _ => by rw [slotInit_mem]
      have hback := ((hput.tracks List.mem_cons_self).restores va).2 k hk
      exact hback.symm.trans ((htrack.restores va).2 k hk)

/-- **The swap tables agree in exactly the runs that ask for nothing they get wrong.**  From the start of the
program, every call is plain if and only if after every call each frame that is out has the slot that was
returned, under its physical address and under every address of its page, and would get its contents back; no
slot has two frames; and the count is the number of occupied slots. -/
theorem swap_agree_iff (mem disk : Nat → UInt8) (ops : List SwapOp) : Each Swap.step Plain ⟨boot mem disk, []⟩ ops ↔
      Each Swap.step (fun h op => Agree (Swap.step h op)) ⟨boot mem disk, []⟩ ops :=
  each_iff Ok (fun _ _ hok hplain => hok.step hplain)
    (fun _ _ hok => ⟨fun hplain => (hok.step hplain).agree, hok.plain_of_agree⟩) _ ops
    (Or.inr ⟨mem, disk, rfl, rfl⟩)

/-- The first frame of the region goes out. -/
def firstOut : SwapState × Int := swapOut (boot (fun _ => 0) fun _ => 0) 0xffffffff90000000 0x1000000

/-- It goes out again: the second answer is the slot plus one. -/
theorem second_swap_out : firstOut.2 = 0 ∧ (swapOut firstOut.1 0xffffffff90000000 0x1000000).2 = 1 ∧
    slotOf (swapOut firstOut.1 0xffffffff90000000 0x1000000).1 0x1000000 = 0 ∧
      vaSlotOf (swapOut firstOut.1 0xffffffff90000000 0x1000000).1 0xffffffff90000000 = 0 := by
  decide +kernel

end WuBuOS.Swap
