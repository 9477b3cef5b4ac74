import WuBuOS.Jit.RegAllocRun

/-!
# The register allocator keeps values

The register table, the table of slots, the table of constants and the memory that the emitted code has
written, tied together by `Keeps`.  A call is a few moves (a register given out, a register released, a slot
given out, a store), each of which has its lemma; `Keeps.step` puts them together for every call, and
`xra_preserves_values` is what follows for runs.

The claim of a value as of the last eviction or store has an exception, `reload_after_mark`: a virtual
register that is changed after it was stored and then marked as a constant comes back as that constant.  And
the counters are `int`s: 2^28 registers given out from the callee-saved pool make the frame negative.
-/

namespace WuBuOS.Jit

open XRARegAlloc
open Function (update update_of_ne update_self)

variable {ra'' : XRARegAlloc}

variable {ra ra' : XRARegAlloc} {v v' slot : Int} {hw hw' : Wx86Reg} {m m' : Amd64.State} {x : BitVec 64}

/-! ## What is kept -/

/-- What the tables say of each other, and what memory holds: `kept v` is what `v` had when it was last
saved. -/
structure Keeps (ra : XRARegAlloc) (m : Amd64.State) (kept : Int → Option (BitVec 64)) : Prop where
  reserved : ∀ hw, hw = .rsp ∨ hw = .rbp ∨ hw = .rax → (ra.regs hw).state = .reserved
  unique : ∀ hw hw' v, ra.Assigned hw v → ra.Assigned hw' v → hw = hw'
  valid : ∀ hw v, ra.Assigned hw v → 0 ≤ v ∧ v < XRA_MAX_VREGS
  slots : ∀ v, 0 ≤ ra.vregSpillSlot v → ra.vregSpillSlot v < ra.nextSpill
  apart : ∀ v v', 0 ≤ ra.vregSpillSlot v → ra.vregSpillSlot v = ra.vregSpillSlot v' → v = v'
  nextSpill : 0 ≤ ra.nextSpill
  nCalleeSaved : 0 ≤ ra.nCalleeSaved
  saved : ∀ v x, kept v = some x → ra.vregConst v = false →
    0 ≤ ra.vregSpillSlot v ∧ X86.load m.mem (slotAddr m (ra.vregSpillSlot v)) = x

variable {kept : Int → Option (BitVec 64)}

theorem keeps_init (n : Int) (m : Amd64.State) : Keeps (xraInit n) m fun _ => none := by
  have hfree : ∀ hw v, ¬(xraInit n).Assigned hw v := by
    intro hw v ha
    have := ha.1
    simp only [xraInit] at this
    split at this <;> cases this
  refine ⟨fun hw h => if_pos h, fun hw _ v h => absurd h (hfree hw v), fun hw v h => absurd h (hfree hw v),
    fun v h => ?_, fun v _ h => ?_, le_rfl, le_rfl, fun v x h => nomatch h⟩
  · exact absurd (show (0 : Int) ≤ -1 from h) (by decide)
  · exact absurd (show (0 : Int) ≤ -1 from h) (by decide)

theorem Keeps.not_reserved (h : Keeps ra m kept) (ha : ra.Assigned hw v) : hw ≠ .rsp ∧ hw ≠ .rbp ∧ hw ≠ .rax := by
  have hne : (ra.regs hw).state ≠ .reserved := by
    rw [ha.1]
    decide
  exact ⟨fun hr => hne (h.reserved hw (.inl hr)), fun hr => hne (h.reserved hw (.inr (.inl hr))),
    fun hr => hne (h.reserved hw (.inr (.inr hr)))⟩

theorem Keeps.give (h : Keeps ra m kept) (hf : (ra.regs hw).state = .free)
    (hv : 0 ≤ v ∧ v < XRA_MAX_VREGS) (hn : ∀ hw, ¬ra.Assigned hw v) : Keeps (ra.give hw v) m kept := by
  refine ⟨fun r hr => ?_, fun r r' u hu hu' => ?_, fun r u hu => ?_, h.slots, h.apart, h.nextSpill, h.nCalleeSaved,
    h.saved⟩
  · have hne : r ≠ hw := by
      rintro rfl
      rw [h.reserved r hr] at hf
      cases hf
    show (update ra.regs hw _ r).state = _
    rw [update_of_ne hne]
    exact h.reserved r hr
  · rw [assigned_give hf] at hu hu'
    rcases hu with ⟨rfl, rfl⟩ | hu <;> rcases hu' with ⟨rfl, hu'⟩ | hu'
    · rfl
    · exact absurd hu' (hn r')
    · exact absurd (hu' ▸ hu) (hn r)
    · exact h.unique r r' u hu hu'
  · rcases (assigned_give hf).1 hu with ⟨-, rfl⟩ | hu
    · exact hv
    · exact h.valid r u hu

theorem Keeps.release (h : Keeps ra m kept) (ha : (ra.regs hw).state = .alloced) : Keeps (ra.release hw) m kept := by
  refine ⟨fun r hr => ?_, fun r r' u hu hu' => ?_, fun r u hu => ?_, h.slots, h.apart, h.nextSpill, h.nCalleeSaved,
    h.saved⟩
  · have hne : r ≠ hw := by
      rintro rfl
      rw [h.reserved r hr] at ha
      cases ha
    show (update ra.regs hw _ r).state = _
    rw [update_of_ne hne]
    exact h.reserved r hr
  · exact h.unique r r' u (assigned_release.1 hu).2 (assigned_release.1 hu').2
  · exact h.valid r u (assigned_release.1 hu).2

/-- Counters may grow. -/
theorem Keeps.grow {n c : Int} (h : Keeps ra m kept) (hn : ra.nextSpill ≤ n) (hc : 0 ≤ c) :
    Keeps { ra with nextSpill := n, nCalleeSaved := c } m kept :=
  ⟨h.reserved, h.unique, h.valid, fun v hv => lt_of_lt_of_le (h.slots v hv) hn, h.apart, le_trans h.nextSpill hn, hc,
    h.saved⟩

/-- A slot is given out, or was before. -/
theorem assign_spec (hv : 0 ≤ v ∧ v < XRA_MAX_VREGS) : xraAssignSpillSlot ra v = (ra.vregSpillSlot v, ra) ∧
      0 ≤ ra.vregSpillSlot v ∨
    xraAssignSpillSlot ra v = (ra.nextSpill, { ra with
      vregSpillSlot := update ra.vregSpillSlot v ra.nextSpill
      nextSpill := cInt (ra.nextSpill + 1) }) ∧ ra.vregSpillSlot v < 0 := by
  rw [xraAssignSpillSlot, if_neg (by omega)]
  by_cases h : ra.vregSpillSlot v ≥ 0
  · exact .inl ⟨if_pos h, h⟩
  · exact .inr ⟨if_neg h, by omega⟩

theorem assign_regs (ra : XRARegAlloc) (v : Int) : (xraAssignSpillSlot ra v).2.regs = ra.regs := by
  unfold xraAssignSpillSlot
  split
  · rfl
  · split <;> rfl

theorem Keeps.assign (h : Keeps ra m kept) (hv : 0 ≤ v ∧ v < XRA_MAX_VREGS) (hn : ra.nextSpill < 2 ^ 29) :
    let s := xraAssignSpillSlot ra v
    Keeps s.2 m kept ∧ 0 ≤ s.1 ∧ s.2.vregSpillSlot v = s.1 := by
  rcases assign_spec hv with ⟨hs, h0⟩ | ⟨hs, h0⟩
  · rw [hs]
    exact ⟨h, h0, rfl⟩
  · have hc : cInt (ra.nextSpill + 1) = ra.nextSpill + 1 := cInt_of (by have := h.nextSpill; omega) (by omega)
    have hold : ∀ u, u ≠ v → update ra.vregSpillSlot v ra.nextSpill u = ra.vregSpillSlot u :=
      fun u hu => update_of_ne hu _ _
    have hnew : update ra.vregSpillSlot v ra.nextSpill v = ra.nextSpill := update_self ..
    rw [hs, hc]
    refine ⟨⟨h.reserved, h.unique, h.valid, fun u hu => ?_, fun u u' hu hu' => ?_, ?_, h.nCalleeSaved,
      fun u x hx hk => ?_⟩, h.nextSpill, hnew⟩
    · dsimp only at hu ⊢
      by_cases huv : u = v
      · rw [huv, hnew]
        omega
      · rw [hold u huv] at hu ⊢
        have := h.slots u hu
        omega
    · dsimp only at hu hu'
      by_cases huv : u = v <;> by_cases huv' : u' = v
      · rw [huv, huv']
      · rw [huv, hnew, hold u' huv'] at hu'
        have := h.slots u' (by have := h.nextSpill; omega)
        omega
      · rw [huv', hnew, hold u huv] at hu'
        have := h.slots u (by have := h.nextSpill; omega)
        omega
      · rw [hold u huv] at hu
        rw [hold u huv, hold u' huv'] at hu'
        exact h.apart u u' hu hu'
    · have := h.nextSpill
      show 0 ≤ ra.nextSpill + 1
      omega
    · obtain ⟨hpos, hload⟩ := h.saved u x hx hk
      have huv : u ≠ v := by
        rintro rfl
        omega
      dsimp only
      rw [hold u huv]
      exact ⟨hpos, hload⟩

/-- The value of a virtual register goes to its slot. -/
theorem Keeps.store (h : Keeps ra m kept) (hs : ra.vregSpillSlot v = slot) (h0 : 0 ≤ slot)
    (hn : ra.nextSpill ≤ 2 ^ 28) (x : BitVec 64) :
    Keeps ra { m with mem := X86.store m.mem (slotAddr m slot) x } (update kept v (some x)) := by
  refine ⟨h.reserved, h.unique, h.valid, h.slots, h.apart, h.nextSpill, h.nCalleeSaved, fun u y hy hk => ?_⟩
  have hslot : slot < 2 ^ 28 := by
    have := h.slots v (by omega)
    omega
  by_cases huv : u = v
  · subst huv
    rw [update_self] at hy
    rw [hs, ← Option.some.inj hy]
    exact ⟨h0, X86.load_store ..⟩
  · rw [update_of_ne huv] at hy
    obtain ⟨hpos, hload⟩ := h.saved u y hy hk
    have hlt := h.slots u hpos
    have hne : ra.vregSpillSlot u ≠ slot := fun heq => huv (h.apart u v hpos (heq.trans hs.symm))
    exact ⟨hpos, (load_store_slot m x h0 hslot hpos (by omega) hne).trans hload⟩

/-- A register other than the frame pointer is written. -/
theorem Keeps.setReg (h : Keeps ra m kept) (hr : hw ≠ .rbp) (x : BitVec 64) :
    Keeps ra (m.setReg hw.toAmd64 x) kept := by
  have hne : Wx86Reg.rbp.toAmd64 ≠ hw.toAmd64 := fun heq => hr (toAmd64_inj heq).symm
  have haddr : ∀ slot, slotAddr (m.setReg hw.toAmd64 x) slot = slotAddr m slot := by
    intro slot
    rw [slotAddr, slotAddr, Amd64.State.addr, Amd64.State.addr, Amd64.setReg_reg, if_neg hne]
  refine ⟨h.reserved, h.unique, h.valid, h.slots, h.apart, h.nextSpill, h.nCalleeSaved, fun u y hy hk => ?_⟩
  rw [haddr]
  exact h.saved u y hy hk

/-- Of a constant nothing has to be kept. -/
theorem Keeps.saveConst (h : Keeps ra m kept) (hk : ra.vregConst v = true) (x : BitVec 64) :
    Keeps ra m (update kept v (some x)) := by
  refine ⟨h.reserved, h.unique, h.valid, h.slots, h.apart, h.nextSpill, h.nCalleeSaved, fun u y hy hu => ?_⟩
  have huv : u ≠ v := by
    rintro rfl
    rw [hk] at hu
    cases hu
  rw [update_of_ne huv] at hy
  exact h.saved u y hy hu

/-! ## The calls -/

/-- The counters grow by `k` at most; the slots and the constants stay. -/
structure Grows (k : Int) (ra ra' : XRARegAlloc) : Prop where
  nextSpill : ra.nextSpill ≤ ra'.nextSpill ∧ ra'.nextSpill ≤ ra.nextSpill + k
  nCalleeSaved : ra.nCalleeSaved ≤ ra'.nCalleeSaved ∧ ra'.nCalleeSaved ≤ ra.nCalleeSaved + k
  slots : ∀ v, 0 ≤ ra.vregSpillSlot v → ra'.vregSpillSlot v = ra.vregSpillSlot v
  vregConst : ra'.vregConst = ra.vregConst
  vregConstVal : ra'.vregConstVal = ra.vregConstVal

theorem Grows.refl {k : Int} (hk : 0 ≤ k) (ra : XRARegAlloc) : Grows k ra ra :=
  ⟨by omega, by omega, fun _ _ => rfl, rfl, rfl⟩

theorem Grows.trans {j k : Int} (h : Grows j ra ra') (h' : Grows k ra' ra'') : Grows (j + k) ra ra'' := by
  have h1 := h.nextSpill
  have h2 := h.nCalleeSaved
  have h3 := h'.nextSpill
  have h4 := h'.nCalleeSaved
  refine ⟨by omega, by omega, fun v hv => ?_, h'.vregConst.trans h.vregConst, h'.vregConstVal.trans h.vregConstVal⟩
  have := h.slots v hv
  exact (h'.slots v (by omega)).trans this

theorem Grows.release {k : Int} (h : Grows k ra ra') (hw : Wx86Reg) : Grows k ra (ra'.release hw) :=
  ⟨h.nextSpill, h.nCalleeSaved, h.slots, h.vregConst, h.vregConstVal⟩

theorem grows_assign (h : Keeps ra m kept) (hv : 0 ≤ v ∧ v < XRA_MAX_VREGS) (hn : ra.nextSpill < 2 ^ 29) :
    Grows 1 ra (xraAssignSpillSlot ra v).2 := by
  rcases assign_spec hv with ⟨hs, h0⟩ | ⟨hs, h0⟩
  · rw [hs]
    exact .refl (by decide) ra
  · have hc : cInt (ra.nextSpill + 1) = ra.nextSpill + 1 := cInt_of (by have := h.nextSpill; omega) (by omega)
    rw [hs, hc]
    refine ⟨?_, ?_, fun u hu => update_of_ne ?_ _ _, rfl, rfl⟩
    · dsimp only
      omega
    · dsimp only
      omega
    · rintro rfl
      omega

/-- `xra_alloc` gives a register out, or only counts. -/
theorem Keeps.alloc (h : Keeps ra m kept) (hnone : ∀ hw, ¬ra.Assigned hw v) (hn : ra.nextSpill < 2 ^ 29)
    (hc : ra.nCalleeSaved < 2 ^ 29) :
    let a := xraAlloc ra v
    Keeps a.2 m kept ∧ Grows 1 ra a.2 ∧ (∀ hw, a.1 = some hw → 0 ≤ v ∧ v < XRA_MAX_VREGS) ∧
      ∀ hw u, a.2.Assigned hw u ↔ a.1 = some hw ∧ u = v ∨ ra.Assigned hw u := by
  have hn0 := h.nextSpill
  have hc0 := h.nCalleeSaved
  have hcn : cInt (ra.nextSpill + 1) = ra.nextSpill + 1 := cInt_of (by omega) (by omega)
  have hcc : cInt (ra.nCalleeSaved + 1) = ra.nCalleeSaved + 1 := cInt_of (by omega) (by omega)
  have hspec := xraAlloc_spec ra v
  generalize xraAlloc ra v = a at hspec
  cases hspec with
  | @taken hw n hf hv hcount =>
    rw [hcc] at hcount
    refine ⟨(h.give hf hv hnone).grow le_rfl (by omega), ⟨?_, ?_, fun _ _ => rfl, rfl, rfl⟩, fun _ _ => hv, fun r u => ?_⟩
    · show ra.nextSpill ≤ ra.nextSpill ∧ ra.nextSpill ≤ ra.nextSpill + 1
      omega
    · show ra.nCalleeSaved ≤ n ∧ n ≤ ra.nCalleeSaved + 1
      omega
    · rw [Option.some.injEq, eq_comm]
      exact assigned_give hf
  | @full n hcount =>
    rw [hcn] at hcount
    refine ⟨h.grow (by omega) hc0, ⟨?_, ?_, fun _ _ => rfl, rfl, rfl⟩, fun _ hr => (by cases hr), fun r u => ?_⟩
    · show ra.nextSpill ≤ n ∧ n ≤ ra.nextSpill + 1
      omega
    · show ra.nCalleeSaved ≤ ra.nCalleeSaved ∧ ra.nCalleeSaved ≤ ra.nCalleeSaved + 1
      omega
    · exact ⟨.inr, fun hr => hr.resolve_left fun hr => nomatch hr.1⟩

/-- `xra_evict_farthest` saves the victim and takes its register, unless there is none. -/
theorem Keeps.evict (h : Keeps ra m kept) (hn : ra.nextSpill < 2 ^ 28) : (xraEvictFarthest ra = (none, ra, [])) ∨
    ∃ hw u ra' e is m', xraEvictFarthest ra = (some hw, ra', e) ∧ ra.Assigned hw u ∧
      Amd64.Encodes e is ∧ Amd64.exec e m = some m' ∧ m'.reg = m.reg ∧
      Keeps ra' m' (update kept u (some (m.reg hw.toAmd64))) ∧ Grows 1 ra ra' ∧
      ∀ r w, ra'.Assigned r w ↔ r ≠ hw ∧ ra.Assigned r w := by
  have hfair : ∀ b, wx86Regs.foldl (evictTurn ra) none = some b → b.Fair ra :=
    evict_fair wx86Regs fun b hb => nomatch hb
  rw [xraEvictFarthest]
  generalize wx86Regs.foldl (evictTurn ra) none = best at hfair
  cases best with
  | none => exact .inl rfl
  | some b =>
    obtain ⟨ha, hv⟩ := hfair b rfl
    have hconst : xraIsConst ra b.vreg = ra.vregConst b.vreg := if_pos hv
    refine .inr ⟨b.victim, b.vreg, ?_⟩
    dsimp only
    by_cases hk : ra.vregConst b.vreg = true
    · rw [hconst, hk, if_pos rfl]
      exact ⟨_, _, [], m, rfl, ha, .nil, rfl, rfl, (h.saveConst hk _).release ha.1,
        (Grows.refl (by decide) ra).release _, fun _ _ => assigned_release⟩
    · rw [hconst, if_neg hk]
      obtain ⟨hkeep, h0, hslot⟩ := h.assign hv (by omega)
      have hgrow := grows_assign h hv (by omega)
      have hassigned : ∀ r w, (xraAssignSpillSlot ra b.vreg).2.Assigned r w ↔ ra.Assigned r w := by
        intro r w
        rw [Assigned, assign_regs]
        exact Iff.rfl
      refine ⟨_, _, _, _, rfl, ha, encodes_movMemReg (by decide) _ _, exec_store .., rfl,
        (hkeep.store hslot h0 ?_ _).release ((hassigned _ _).2 ha).1, hgrow.release _, fun r w => ?_⟩
      · have := hgrow.nextSpill
        omega
      · rw [assigned_release, hassigned]

theorem savedBy_congr (h : ra''.regs = ra'.regs) : savedBy ra ra'' m kept = savedBy ra ra' m kept := by
  have hg : xraGetReg ra'' = xraGetReg ra' := by
    unfold xraGetReg
    rw [h]
  unfold savedBy
  rw [hg]

theorem savedBy_same (h : ∀ hw u, ra.Assigned hw u → ∃ hw', ra'.Assigned hw' u) : savedBy ra ra' m kept = kept := by
  funext u
  unfold savedBy
  split
  · rename_i hw hs hn
    obtain ⟨hw', ha⟩ := h hw u (getReg_some hs)
    exact absurd ha (getReg_none.1 hn hw')
  · rfl

theorem savedBy_one {u : Int} (hu : ∀ hw hw' v, ra.Assigned hw v → ra.Assigned hw' v → hw = hw')
    (ha : ra.Assigned hw u) (hlost : ∀ hw', ¬ra'.Assigned hw' u)
    (hrest : ∀ hw' w, w ≠ u → ra.Assigned hw' w → ra'.Assigned hw' w) :
    savedBy ra ra' m kept = update kept u (some (m.reg hw.toAmd64)) := by
  funext w
  by_cases hw' : w = u
  · subst hw'
    rw [update_self, savedBy, getReg_none.2 hlost]
    cases hg : xraGetReg ra w with
    | none => exact absurd ha (getReg_none.1 hg hw)
    | some r => rw [hu r hw w (getReg_some hg) ha]
  · rw [update_of_ne hw']
    unfold savedBy
    split
    · rename_i r hs hn
      exact absurd (hrest r w hw' (getReg_some hs)) (getReg_none.1 hn r)
    · rfl

/-- `xra_alloc_evict`: the code it emits does not fault, and the virtual register that loses its register is
saved. -/
theorem Keeps.allocEvict (h : Keeps ra m kept) (hnone : ∀ hw, ¬ra.Assigned hw v) (hn : ra.nextSpill < 2 ^ 28 - 1)
    (hc : ra.nCalleeSaved < 2 ^ 28) : ∃ r ra' e is m', xraAllocEvict ra v = (r, ra', e) ∧
      Amd64.Encodes e is ∧ Amd64.exec e m = some m' ∧ m'.reg = m.reg ∧
      Keeps ra' m' (savedBy ra ra' m kept) ∧ Grows 3 ra ra' ∧
      ∀ hw, r = some hw → ra'.Assigned hw v ∧ 0 ≤ v ∧ v < XRA_MAX_VREGS := by
  obtain ⟨hkeep, hgrow, hvalid, hass⟩ := h.alloc hnone (by omega) (by omega)
  rw [xraAllocEvict]
  generalize xraAlloc ra v = a at hkeep hgrow hvalid hass
  obtain ⟨r, ra1⟩ := a
  have hg1 := hgrow.nextSpill
  have hg2 := hgrow.nCalleeSaved
  cases r with
  | some hw =>
    refine ⟨some hw, ra1, [], [], m, rfl, .nil, rfl, rfl, ?_, ?_, fun hw' hr => ?_⟩
    · rw [savedBy_same fun hw' u hu => ⟨hw', (hass hw' u).2 (.inr hu)⟩]
      exact hkeep
    · exact hgrow.trans (Grows.refl (by decide : (0 : Int) ≤ 2) ra1)
    · exact ⟨(hass hw' v).2 (.inl ⟨hr, rfl⟩), hvalid hw' hr⟩
  | none =>
    have hass : ∀ hw u, ra1.Assigned hw u ↔ ra.Assigned hw u := fun hw u =>
      (hass hw u).trans (or_iff_right fun hu => nomatch hu.1)
    dsimp only
    rcases hkeep.evict (by omega) with he | ⟨hw, u, ra2, e, is, m', he, hu, henc, hexec, hreg, hkeep2, hgrow2, hass2⟩
    · rw [he]
      refine ⟨none, ra1, [], [], m, rfl, .nil, rfl, rfl, ?_, ?_, fun _ hr => nomatch hr⟩
      · rw [savedBy_same fun hw' u hu => ⟨hw', (hass hw' u).2 hu⟩]
        exact hkeep
      · exact hgrow.trans (Grows.refl (by decide : (0 : Int) ≤ 2) ra1)
    · have hg3 := hgrow2.nextSpill
      have hg4 := hgrow2.nCalleeSaved
      have hnone2 : ∀ hw, ¬ra2.Assigned hw v := fun r hr => hnone r ((hass r v).1 ((hass2 r v).1 hr).2)
      obtain ⟨hkeep3, hgrow3, hvalid3, hass3⟩ := hkeep2.alloc hnone2 (by omega) (by omega)
      have hu' : ra.Assigned hw u := (hass hw u).1 hu
      have huv : u ≠ v := by
        rintro rfl
        exact hnone hw hu'
      have hsaved : savedBy ra (xraAlloc ra2 v).2 m kept = update kept u (some (m.reg hw.toAmd64)) := by
        refine savedBy_one h.unique hu' (fun r hr => ?_) fun r w hwu hr => ?_
        · rcases (hass3 r u).1 hr with ⟨-, rfl⟩ | hr
          · exact huv rfl
          · obtain ⟨hne, hr⟩ := (hass2 r u).1 hr
            exact hne (hkeep.unique r hw u hr hu)
        · refine (hass3 r w).2 (.inr ((hass2 r w).2 ⟨?_, (hass r w).2 hr⟩))
          rintro rfl
          exact hwu (hr.2.symm.trans hu'.2)
      rw [he]
      refine ⟨_, _, e, is, m', rfl, henc, hexec, hreg, ?_, hgrow.trans (hgrow2.trans hgrow3), fun r hr => ?_⟩
      · rw [hsaved]
        exact hkeep3
      · exact ⟨(hass3 r v).2 (.inl ⟨hr, rfl⟩), hvalid3 r hr⟩

/-- `xra_spill_load`: what was saved is in the register that is returned. -/
theorem Keeps.spillLoad (h : Keeps ra m kept) (hnone : ∀ hw, ¬ra.Assigned hw v) (hn : ra.nextSpill < 2 ^ 28 - 1)
    (hc : ra.nCalleeSaved < 2 ^ 28) : ∃ r ra' e m', xraSpillLoad ra v = (r, ra', e) ∧
      Amd64.exec e m = some m' ∧ Keeps ra' m' (savedBy ra ra' m kept) ∧ Grows 4 ra ra' ∧
      ∀ hw x, r = some hw → kept v = some x → m'.reg hw.toAmd64 = if xraIsConst ra v then ra.vregConstVal v else x := by
  obtain ⟨r, ra1, e, is, m1, he, henc, hexec, hreg, hkeep, hgrow, hr⟩ := h.allocEvict hnone hn hc
  have hg1 := hgrow.nextSpill
  rw [xraSpillLoad, he]
  cases r with
  | none =>
    exact ⟨none, ra1, e, m1, rfl, hexec, hkeep, hgrow.trans (Grows.refl (by decide : (0 : Int) ≤ 1) ra1),
      fun _ _ hr => nomatch hr⟩
  | some hw =>
    obtain ⟨ha, hv⟩ := hr hw rfl
    have hne : hw ≠ .rbp := (hkeep.not_reserved ha).2.1
    have hconst : xraIsConst ra v = ra.vregConst v := if_pos hv
    have hconst1 : xraIsConst ra1 v = ra.vregConst v := (if_pos hv).trans (congrFun hgrow.vregConst v)
    dsimp only
    rw [hconst1, hconst]
    by_cases hk : ra.vregConst v = true
    · simp only [hk, if_true]
      rw [hgrow.vregConstVal]
      refine ⟨some hw, ra1, _, m1.setReg hw.toAmd64 (ra.vregConstVal v), rfl, ?_, hkeep.setReg hne _,
        hgrow.trans (Grows.refl (by decide : (0 : Int) ≤ 1) ra1), fun r x hr hx => ?_⟩
      · rw [Amd64.exec, henc.exec_append (encodes_movRegImm64 ..)]
        exact (congrArg (Option.bind · _) hexec).trans (exec_imm ..)
      · rw [← Option.some.inj hr, Amd64.setReg_reg, if_pos rfl]
    · simp only [hk, Bool.false_eq_true, if_false]
      obtain ⟨hkeep2, -, hslot⟩ := hkeep.assign hv (by omega)
      have hgrow2 := grows_assign hkeep hv (by omega)
      have hsame : savedBy ra (xraAssignSpillSlot ra1 v).2 m kept = savedBy ra ra1 m kept :=
        savedBy_congr (assign_regs ra1 v)
      refine ⟨some hw, _, _, m1.setReg hw.toAmd64 (X86.load m1.mem (slotAddr m1 (xraAssignSpillSlot ra1 v).1)), rfl,
        ?_, ?_, hgrow.trans hgrow2, fun r x hr hx => ?_⟩
      · rw [Amd64.exec, henc.exec_append (encodes_movRegMem (by decide) _ _)]
        exact (congrArg (Option.bind · _) hexec).trans (exec_load ..)
      · rw [hsame]
        exact hkeep2.setReg hne _
      · have hx1 : savedBy ra ra1 m kept v = some x := by
          rw [savedBy, getReg_none.2 hnone]
          exact hx
        have hk1 : (xraAssignSpillSlot ra1 v).2.vregConst v = false := by
          rw [hgrow2.vregConst, hgrow.vregConst]
          exact Bool.not_eq_true _ ▸ hk
        have hload := (hkeep2.saved v x hx1 hk1).2
        rw [hslot] at hload
        rw [← Option.some.inj hr, Amd64.setReg_reg, if_pos rfl]
        exact hload

/-- `xra_spill_store`: the virtual register is saved, if it has a register. -/
theorem Keeps.spillStore (h : Keeps ra m kept) (hn : ra.nextSpill < 2 ^ 28 - 1) (v : Int) : ∃ ra' e m',
    xraSpillStore ra v = (ra', e) ∧ Amd64.exec e m = some m' ∧ Grows 1 ra ra' ∧
      Keeps ra' m' (storedBy ra v m kept) := by
  rw [xraSpillStore, storedBy]
  cases hg : xraGetReg ra v with
  | none => exact ⟨ra, [], m, rfl, rfl, Grows.refl (by decide) ra, h⟩
  | some hw =>
    have hv := h.valid hw v (getReg_some hg)
    obtain ⟨hkeep, h0, hslot⟩ := h.assign hv (by omega)
    have hgrow := grows_assign h hv (by omega)
    have := hgrow.nextSpill
    exact ⟨_, _, _, rfl, exec_store .., hgrow, hkeep.store hslot h0 (by omega) _⟩

/-! ## Runs -/

/-- What a call leaves: the slots, and the counters at least. -/
structure Later (ra ra' : XRARegAlloc) : Prop where
  nextSpill : ra.nextSpill ≤ ra'.nextSpill
  slots : ∀ v, 0 ≤ ra.vregSpillSlot v → ra'.vregSpillSlot v = ra.vregSpillSlot v

theorem Later.refl (ra : XRARegAlloc) : Later ra ra := ⟨le_rfl, fun _ _ => rfl⟩

theorem Later.trans (h : Later ra ra') (h' : Later ra' ra'') : Later ra ra'' := by
  refine ⟨le_trans h.nextSpill h'.nextSpill, fun v hv => ?_⟩
  have := h.slots v hv
  exact (h'.slots v (by omega)).trans this

theorem Grows.later {k : Int} (h : Grows k ra ra') : Later ra ra' := ⟨h.nextSpill.1, h.slots⟩

theorem Keeps.setNextUse (h : Keeps ra m kept) (v n : Int) : Keeps (xraSetNextUse ra v n) m kept := by
  unfold xraSetNextUse
  split
  · exact ⟨h.reserved, h.unique, h.valid, h.slots, h.apart, h.nextSpill, h.nCalleeSaved, h.saved⟩
  · exact h

theorem Keeps.markConst (h : Keeps ra m kept) (v : Int) (k : BitVec 64) : Keeps (xraMarkConst ra v k) m kept := by
  unfold xraMarkConst
  split
  · refine ⟨h.reserved, h.unique, h.valid, h.slots, h.apart, h.nextSpill, h.nCalleeSaved, fun u x hx hk => ?_⟩
    by_cases huv : u = v
    · rw [huv] at hk
      exact absurd ((update_self ..).symm.trans hk) (by decide)
    · exact h.saved u x hx ((update_of_ne huv _ _).symm.trans hk)
  · exact h

/-- The invariant of a run. -/
def World.Kept (w : World) : Prop := Keeps w.ra w.machine w.kept

variable {w w' : World} {op : XRACall}

/-- **Every permitted call goes through** and keeps what has to be kept. -/
theorem Keeps.step (h : w.Kept) (hf : w.Fits) (hp : w.Permits op) :
    ∃ w', w.step op = some w' ∧ w'.Kept ∧ Later w.ra w'.ra := by
  have hn := h.nextSpill
  have hc := h.nCalleeSaved
  rw [World.Fits, INT32_MAX] at hf
  cases op with
  | allocEvict v =>
    obtain ⟨r, ra', e, is, m', he, -, hexec, -, hkeep, hgrow, -⟩ :=
      h.allocEvict (getReg_none.1 hp) (by omega) (by omega)
    refine ⟨⟨ra', m', savedBy w.ra ra' w.machine w.kept⟩, ?_, hkeep, hgrow.later⟩
    simp only [World.step, World.emitted, he, hexec, Option.map_some]
  | spillLoad v =>
    obtain ⟨r, ra', e, m', he, hexec, hkeep, hgrow, -⟩ := h.spillLoad (getReg_none.1 hp) (by omega) (by omega)
    refine ⟨⟨ra', m', savedBy w.ra ra' w.machine w.kept⟩, ?_, hkeep, hgrow.later⟩
    simp only [World.step, World.emitted, he, hexec, Option.map_some]
  | spillStore v =>
    obtain ⟨ra', e, m', he, hexec, hgrow, hkeep⟩ := h.spillStore (by omega) v
    refine ⟨⟨ra', m', storedBy w.ra v w.machine w.kept⟩, ?_, hkeep, hgrow.later⟩
    simp only [World.step, World.emitted, he, hexec, Option.map_some]
  | freeReg hw => exact ⟨_, rfl, Keeps.release h hp, le_rfl, fun _ _ => rfl⟩
  | setNextUse v n =>
    refine ⟨_, rfl, Keeps.setNextUse h v n, ?_⟩
    unfold xraSetNextUse
    split <;> exact ⟨le_rfl, fun _ _ => rfl⟩
  | markConst v k =>
    refine ⟨_, rfl, Keeps.markConst h v k, ?_⟩
    unfold xraMarkConst
    split <;> exact ⟨le_rfl, fun _ _ => rfl⟩
  | write v x =>
    cases hg : xraGetReg w.ra v with
    | none => exact ⟨w, by simp only [World.step, hg], h, .refl _⟩
    | some hw =>
      exact ⟨{ w with machine := w.machine.setReg hw.toAmd64 x }, by simp only [World.step, hg],
        h.setReg (h.not_reserved (getReg_some hg)).2.1 x, .refl _⟩

theorem finalize_eq (ra : XRARegAlloc) : (xraFinalize ra).1 =
    cInt ((cInt (cInt (cInt (ra.nCalleeSaved * 8) + cInt (ra.nextSpill * 8)) + 15)).tdiv 16 * 16) := by
  unfold xraFinalize
  rfl

/-- The frame holds all the slots that were counted. -/
theorem le_finalize (h : w.Kept) (hf : w.Fits) : 8 * w.ra.nextSpill ≤ (xraFinalize w.ra).1 := by
  have hn := h.nextSpill
  have hc := h.nCalleeSaved
  rw [World.Fits, INT32_MAX] at hf
  have h1 : cInt (w.ra.nCalleeSaved * 8) = w.ra.nCalleeSaved * 8 := cInt_of (by omega) (by omega)
  have h2 : cInt (w.ra.nextSpill * 8) = w.ra.nextSpill * 8 := cInt_of (by omega) (by omega)
  have h3 : cInt (w.ra.nCalleeSaved * 8 + w.ra.nextSpill * 8) = w.ra.nCalleeSaved * 8 + w.ra.nextSpill * 8 :=
    cInt_of (by omega) (by omega)
  have h4 : cInt (w.ra.nCalleeSaved * 8 + w.ra.nextSpill * 8 + 15) =
      w.ra.nCalleeSaved * 8 + w.ra.nextSpill * 8 + 15 := cInt_of (by omega) (by omega)
  have h5 := Int.tdiv_eq_ediv_of_nonneg (b := 16)
    (show 0 ≤ w.ra.nCalleeSaved * 8 + w.ra.nextSpill * 8 + 15 by omega)
  rw [finalize_eq, h1, h2, h3, h4, h5, cInt_of (by omega) (by omega)]
  omega

theorem step_kept (hs : w.Step op w') (h : w.Kept ∧ w.Fits) : (w'.Kept ∧ w'.Fits) ∧ Later w.ra w'.ra := by
  obtain ⟨⟨hp, hstep⟩, hfit⟩ := hs
  obtain ⟨w1, hw1, hkept, hlater⟩ := Keeps.step h.1 h.2 hp
  obtain rfl : w1 = w' := Option.some.inj (hw1.symm.trans hstep)
  exact ⟨⟨hkept, hfit⟩, hlater⟩

theorem kept_init (n : Int) (m : Amd64.State) : (World.init n m).Kept ∧ (World.init n m).Fits :=
  ⟨keeps_init n m, show 8 * ((0 : Int) + 0) + 15 ≤ 2147483647 by decide⟩

theorem run_kept {ops : List XRACall} (h : Runs.Run World.Step w ops w') (hw : w.Kept ∧ w.Fits) :
    (w'.Kept ∧ w'.Fits) ∧ Later w.ra w'.ra := by
  refine h.invariant (fun t => (t.Kept ∧ t.Fits) ∧ Later w.ra t.ra) (fun s op t hs hi => ?_) ⟨hw, .refl _⟩
  obtain ⟨hkept, hlater⟩ := step_kept hs hi.1
  exact ⟨hkept, hi.2.trans hlater⟩

/-- **The register allocator preserves values**, in every run whose counters stay in range: no two virtual
registers share a register or a slot, and none has two registers; the stack pointer, the frame pointer and
the return register are never given out; every permitted call goes through; what `xra_spill_load` brings
back is what was saved last, or the constant that the virtual register has been marked with; and every slot
lies in the frame that is computed at any later time. -/
theorem xra_preserves_values (nArgs : Int) (m : Amd64.State) {ops : List XRACall}
    (h : Runs.Run World.Step (.init nArgs m) ops w) :
    (∀ hw v v', w.ra.Assigned hw v → w.ra.Assigned hw v' → v = v') ∧
    (∀ hw hw' v, w.ra.Assigned hw v → w.ra.Assigned hw' v → hw = hw') ∧
    (∀ hw v, w.ra.Assigned hw v → hw ≠ .rsp ∧ hw ≠ .rbp ∧ hw ≠ .rax) ∧
    (∀ v v', 0 ≤ w.ra.vregSpillSlot v → w.ra.vregSpillSlot v = w.ra.vregSpillSlot v' → v = v') ∧
    (∀ op, w.Permits op → ∃ w', w.step op = some w') ∧
    (∀ v hw w' x, w.Calls (.spillLoad v) w' → (xraSpillLoad w.ra v).1 = some hw → w.kept v = some x →
      w'.machine.reg hw.toAmd64 = if xraIsConst w.ra v then w.ra.vregConstVal v else x) ∧
    ∀ ops' w', Runs.Run World.Step w ops' w' → ∀ v, 0 ≤ w.ra.vregSpillSlot v →
      w'.ra.vregSpillSlot v = w.ra.vregSpillSlot v ∧
      -(xraFinalize w'.ra).1 ≤ (slotOffset (w.ra.vregSpillSlot v)).toInt ∧
      (slotOffset (w.ra.vregSpillSlot v)).toInt + 8 ≤ 0 := by
  obtain ⟨⟨hk, hf⟩, -⟩ := run_kept h (kept_init nArgs m)
  refine ⟨fun hw v v' ha ha' => ha.2.symm.trans ha'.2, hk.unique, fun hw v ha => hk.not_reserved ha, hk.apart,
    fun op hp => ?_, fun v hw w' x hc hr hx => ?_, fun ops' w' h' v hv => ?_⟩
  · obtain ⟨w', hw', -⟩ := Keeps.step hk hf hp
    exact ⟨w', hw'⟩
  · have hn := hk.nextSpill
    have hs := hk.nCalleeSaved
    have hfit := hf
    rw [World.Fits, INT32_MAX] at hfit
    obtain ⟨r, ra', e, m', he, hexec, -, -, hval⟩ := hk.spillLoad (getReg_none.1 hc.1) (by omega) (by omega)
    have hstep := hc.2
    simp only [World.step, World.emitted, he, hexec, Option.map_some, Option.some.injEq] at hstep
    rw [he] at hr
    rw [← hstep]
    exact hval hw x hr hx
  · obtain ⟨⟨hk', hf'⟩, hlater⟩ := run_kept h' ⟨hk, hf⟩
    have hlt := hk.slots v hv
    have hle := le_finalize hk' hf'
    have hle' := hlater.nextSpill
    have hn := hk'.nCalleeSaved
    rw [World.Fits, INT32_MAX] at hf'
    rw [toInt_slotOffset hv (by omega)]
    exact ⟨hlater.slots v hv, by omega, by omega⟩

/-! ## Runs on given inputs -/

instance (w : World) : ∀ op, Decidable (w.Permits op)
  | .allocEvict v | .spillLoad v => inferInstanceAs (Decidable (xraGetReg w.ra v = none))
  | .freeReg hw => inferInstanceAs (Decidable ((w.ra.regs hw).state = .alloced))
  | .spillStore _ | .setNextUse _ _ | .markConst _ _ | .write _ _ => inferInstanceAs (Decidable True)

instance (w : World) : ∀ op, Decidable (w.Honest op)
  | .markConst v k =>
    match h : xraGetReg w.ra v with
    | some hw => decidable_of_iff (w.machine.reg hw.toAmd64 = k) (by simp [World.Honest, h])
    | none => isFalse (by simp [World.Honest, h])
  | .write v x => inferInstanceAs (Decidable (xraIsConst w.ra v → x = w.ra.vregConstVal v))
  | .allocEvict v => inferInstanceAs (Decidable (xraIsConst w.ra v = false))
  | .spillLoad _ | .spillStore _ | .freeReg _ | .setNextUse _ _ => inferInstanceAs (Decidable True)

instance (w : World) : Decidable w.Fits := inferInstanceAs (Decidable (_ ≤ _))

/-- Perform a run, checking that the calls are permitted and honest and that the counters stay in range. -/
def World.replay (w : World) (ops : List XRACall) : Option World :=
  Runs.replay (fun w op => w.Permits op ∧ w.Honest op) (fun w op => (w.step op).filter (decide ·.Fits)) w ops

theorem run_of_replay {ops : List XRACall} (h : w.replay ops = some w') :
    Runs.Run (Runs.guarded World.Honest World.Step) w ops w' := by
  refine (Runs.run_of_replay h).mono fun s op t hs => ?_
  obtain ⟨⟨hp, hh⟩, hstep⟩ := hs
  obtain ⟨hstep, hfit⟩ := Option.filter_eq_some_iff.1 hstep
  exact ⟨hh, ⟨hp, hstep⟩, of_decide_eq_true hfit⟩

/-- A machine with nothing in it. -/
def zeroed : Amd64.State := ⟨fun _ => 0, fun _ => 0, none⟩

/-- A run that is performed, and what can be checked of its end. -/
theorem run_of_check (ops : List XRACall) (P : World → Prop) [DecidablePred P]
    (h : ((World.init 0 zeroed).replay ops).any (fun w => P w) = true) :
    ∃ w, Runs.Run (Runs.guarded World.Honest World.Step) (.init 0 zeroed) ops w ∧ P w := by
  obtain ⟨w, hw, hp⟩ := (Option.any_eq_true _ _).1 h
  exact ⟨w, run_of_replay hw, of_decide_eq_true hp⟩

/-- Thirteen values: for the last one a register is evicted, that of the third. -/
def evictRun : List XRACall :=
  (List.range 13).flatMap fun i : Nat => [.allocEvict i, .write i (.ofNat 64 (5 + i))]

theorem xra_preserves_values_evicted : ∃ w w', Runs.Run World.Step (.init 0 zeroed) evictRun w ∧
    w.Calls (.spillLoad 2) w' ∧ w'.machine.reg Wx86Reg.rcx.toAmd64 = 7 := by
  obtain ⟨w, hhonest, hkept, hconst, hload, hnone⟩ := run_of_check evictRun (fun w => w.kept 2 = some 7 ∧
    xraIsConst w.ra 2 = false ∧ (xraSpillLoad w.ra 2).1 = some .rcx ∧ xraGetReg w.ra 2 = none) (by decide)
  have hrun : Runs.Run World.Step (.init 0 zeroed) evictRun w := hhonest.mono fun _ _ _ h => h.2
  obtain ⟨-, -, -, -, hgo, hval, -⟩ := xra_preserves_values 0 zeroed hrun
  obtain ⟨w', hw'⟩ := hgo (.spillLoad 2) hnone
  have hreg := hval 2 .rcx w' 7 ⟨hnone, hw'⟩ hload hkept
  rw [hconst, if_neg (by decide)] at hreg
  exact ⟨w, w', hrun, ⟨hnone, hw'⟩, hreg⟩

/-- Save 5, change the register to 7, mark it as the constant it then is, and forget it. -/
def markRun : List XRACall :=
  [.allocEvict 0, .write 0 5, .spillStore 0, .write 0 7, .markConst 0 7, .freeReg .r10]

/-- The world with another count of callee-saved registers. -/
def World.counted (w : World) (n : Int) : World := { w with ra := { w.ra with nCalleeSaved := n } }

/-- The scratch pool is taken, the callee-saved one is not, and 7 is not in a register. -/
structure World.Full (w : World) : Prop where
  scratch : w.ra.firstFree (scratchPool.take SCRATCH_COUNT) = none
  rbx : w.ra.regs .rbx = ⟨-1, .free⟩
  none : xraGetReg w.ra 7 = none
  isConst : xraIsConst w.ra 7 = false

/-- One register of the callee-saved pool given out and taken back: only the count is another. -/
theorem turn (h : w.Full) {n : Int} (hn : w.ra.nCalleeSaved = n) (h0 : 0 ≤ n) (h1 : n < 2 ^ 30) :
    Runs.Run (Runs.guarded World.Honest World.Calls) w [.allocEvict 7, .freeReg .rbx] (w.counted (n + 1)) := by
  have hfree : (w.ra.regs .rbx).state = .free := by rw [h.rbx]
  have hcount : cInt (w.ra.nCalleeSaved + 1) = n + 1 := by
    rw [hn]
    exact cInt_of (by omega) (by omega)
  have hpool : w.ra.firstFree calleePool = some .rbx := by
    simp [firstFree, calleePool, hfree]
  have halloc : xraAllocEvict w.ra 7 = (some .rbx, { w.ra.give .rbx 7 with nCalleeSaved := n + 1 }, []) := by
    rw [xraAllocEvict, xraAlloc, if_neg (by decide), h.scratch, hpool, hcount]
  have hsaved : savedBy w.ra { w.ra.give .rbx 7 with nCalleeSaved := n + 1 } w.machine w.kept = w.kept :=
    savedBy_same fun hw u hu => ⟨hw, (assigned_give hfree).2 (.inr hu)⟩
  have hback : update (update w.ra.regs .rbx ⟨7, .alloced⟩) .rbx ⟨-1, .free⟩ = w.ra.regs := by
    rw [Function.update_idem, ← h.rbx, Function.update_eq_self]
  have hfirst : w.step (.allocEvict 7) = some ⟨{ w.ra.give .rbx 7 with nCalleeSaved := n + 1 }, w.machine, w.kept⟩ := by
    simp only [World.step, halloc, hsaved, World.emitted]
    rfl
  have hsecond : World.step ⟨{ w.ra.give .rbx 7 with nCalleeSaved := n + 1 }, w.machine, w.kept⟩ (.freeReg .rbx) =
      some (w.counted (n + 1)) := by
    simp only [World.step, xraFreeReg, release, give, hback]
    rfl
  have hgiven : (update w.ra.regs .rbx ⟨7, .alloced⟩ .rbx).state = .alloced := by
    rw [update_self]
  exact .cons ⟨h.isConst, h.none, hfirst⟩ (.single ⟨trivial, hgiven, hsecond⟩)

theorem turns (h : w.Full) (hn : w.ra.nCalleeSaved = 0) : ∀ k : Nat, k ≤ 2 ^ 30 →
    Runs.Run (Runs.guarded World.Honest World.Calls) w (List.replicate k [.allocEvict 7, .freeReg .rbx]).flatten
      (w.counted k)
  | 0, _ => by
    have hw : w.counted (0 : Nat) = w := by
      rw [World.counted, Int.natCast_zero, ← hn]
    rw [hw]
    exact .nil w
  | k + 1, hk => by
    have hfull : (w.counted k).Full := ⟨h.scratch, h.rbx, h.none, h.isConst⟩
    have hcount : (w.counted k).ra.nCalleeSaved = k := rfl
    have hlast := turn hfull hcount (by omega) (by omega)
    rw [List.replicate_succ', List.flatten_append, List.flatten_singleton]
    exact (turns h hn k (by omega)).append hlast

/-- Fill the scratch pool. -/
def fillRun : List XRACall :=
  [.allocEvict 0, .allocEvict 1, .allocEvict 2, .allocEvict 3, .allocEvict 4, .allocEvict 5, .allocEvict 6]

/-- Give the same callee-saved register out `n` times, and store a register. -/
def overflowRun (n : Nat) : List XRACall :=
  fillRun ++ ((List.replicate n [.allocEvict 7, .freeReg .rbx]).flatten ++ [.spillStore 0])

/-- What was stored is not what comes back; and a frame may be negative. -/
theorem reload_after_mark : (∃ w w', Runs.Run (Runs.guarded World.Honest World.Step) (.init 0 zeroed) markRun w ∧
      w.Calls (.spillLoad 0) w' ∧ (xraSpillLoad w.ra 0).1 = some .r10 ∧ w.kept 0 = some 5 ∧
      w'.machine.reg Wx86Reg.r10.toAmd64 = 7) ∧
    ∃ w, Runs.Run (Runs.guarded World.Honest World.Calls) (.init 0 zeroed) (overflowRun (2 ^ 28)) w ∧
      w.ra.vregSpillSlot 0 = 0 ∧ (xraFinalize w.ra).1 < 0 := by
  constructor
  · obtain ⟨w, hrun, hkept, hload, hnone, hstep⟩ := run_of_check markRun (fun w => w.kept 0 = some 5 ∧
      (xraSpillLoad w.ra 0).1 = some .r10 ∧ xraGetReg w.ra 0 = none ∧
        (w.step (.spillLoad 0)).map (·.machine.reg Wx86Reg.r10.toAmd64) = some 7) (by decide)
    obtain ⟨w', hw', hreg⟩ := Option.map_eq_some_iff.1 hstep
    exact ⟨w, w', hrun, ⟨hnone, hw'⟩, hload, hkept, hreg⟩
  · obtain ⟨w, hfill, hscratch, hrbx, h7, hconst, hn, h0, hslot, hnext⟩ := run_of_check fillRun (fun w =>
      w.ra.firstFree (scratchPool.take SCRATCH_COUNT) = none ∧ w.ra.regs .rbx = ⟨-1, .free⟩ ∧
        xraGetReg w.ra 7 = none ∧ xraIsConst w.ra 7 = false ∧ w.ra.nCalleeSaved = 0 ∧
        xraGetReg w.ra 0 = some .r10 ∧ w.ra.vregSpillSlot 0 = -1 ∧ w.ra.nextSpill = 0) (by decide)
    generalize hcount : 2 ^ 28 = n
    have hturns := turns ⟨hscratch, hrbx, h7, hconst⟩ hn n (by omega)
    have hstore : xraSpillStore (w.counted n).ra 0 = ({ (w.counted n).ra with
          vregSpillSlot := update w.ra.vregSpillSlot 0 0
          nextSpill := 1 }, wx86MovMemReg .rbp (slotOffset 0) .r10) := by
      have hreg : xraGetReg (w.counted n).ra 0 = some .r10 := h0
      have hnew : ¬(w.counted n).ra.vregSpillSlot 0 ≥ 0 := by
        show ¬w.ra.vregSpillSlot 0 ≥ 0
        omega
      have hnext : (w.counted n).ra.nextSpill = 0 := hnext
      rw [xraSpillStore, hreg]
      rw [xraAssignSpillSlot, if_neg (by decide), if_neg hnew, hnext]
      rfl
    obtain ⟨w', hw', hra⟩ : ∃ w', (w.counted n).step (.spillStore 0) = some w' ∧
        w'.ra = (xraSpillStore (w.counted n).ra 0).1 := by
      simp only [World.step, World.emitted, hstore, exec_store, Option.map_some]
      exact ⟨_, rfl, rfl⟩
    have hcallee : w'.ra.nCalleeSaved = 268435456 := by
      rw [hra, hstore]
      show (n : Int) = _
      omega
    have hspill : w'.ra.nextSpill = 1 := by rw [hra, hstore]
    refine ⟨w', (hfill.mono fun _ _ _ h => ⟨h.1, h.2.1⟩).append
      (hturns.append (.single ⟨trivial, trivial, hw'⟩)), ?_, ?_⟩
    · rw [hra, hstore]
      show update w.ra.vregSpillSlot 0 0 0 = 0
      exact update_self ..
    · rw [finalize_eq, hcallee, hspill]
      decide

end WuBuOS.Jit
