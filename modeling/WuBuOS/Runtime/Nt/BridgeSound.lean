import WuBuOS.Runtime.Nt.Bridge

/-!
# What holds of the bridge

`Bridge.Sound` is what holds of the records and the capability handle table: every record that is bound has an
entry of its own, for the object that its token names.  `Grows` is what minting does to a bridge, and `Frame`
says that one record has changed at most; revoked objects stay revoked.

For every call there is a lemma about what it does, and `authorize_iff` is what a bound handle is authorised
for.
-/

namespace WuBuOS.Nt

open Cap

variable {b b' : Bridge} {i j di si slot idx : Nat} {h src dst : BitVec 32} {type : ObjectType}
  {desired m : Mask} {entry : HandleRecord} {tok : Token}

/-! ## Records -/

@[simp]
theorem Bridge.set_self : (b.set i entry).handleTable i = entry := Function.update_self ..

theorem Bridge.set_other (hne : j ≠ i) : (b.set i entry).handleTable j = b.handleTable j :=
  Function.update_of_ne hne ..

/-- An entry of the capability handle table is in use, for the object. -/
def Bridge.Holds (b : Bridge) (slot idx : Nat) : Prop := ∃ t, b.capHt = some t ∧ t.Holds slot idx

def Bridge.TablesOk (b : Bridge) : Prop := ∀ t, b.capHt = some t → t.Ok

/-- There is an entry of the capability handle table to be had. -/
def Bridge.HasRoom (b : Bridge) : Prop := ∃ t ∈ b.capHt, t.HasRoom b.reg

instance (b : Bridge) : Decidable b.HasRoom :=
  match hb : b.capHt with
  | none => isFalse fun ⟨_, ht, _⟩ => nomatch hb.symm.trans ht
  | some t => decidable_of_iff (t.HasRoom b.reg)
    ⟨fun hr => ⟨t, hb, hr⟩, fun ⟨_, ht, hr⟩ => Option.some.inj (hb.symm.trans ht) ▸ hr⟩

/-- **What holds of the bridge.** -/
structure Bridge.Sound (b : Bridge) : Prop where
  tables : b.TablesOk
  numbered : ∀ i, (b.handleTable i).valid = true →
    i < handleTableSize ∧ (b.handleTable i).ntHandle = .ofNat 32 (handleBase + i)
  unused : ∀ i, (b.handleTable i).valid = false → (b.handleTable i).capBacked = false
  backed : ∀ i, (b.handleTable i).capBacked = true →
    b.Holds (b.handleTable i).capSlot (b.handleTable i).capToken.idx ∧ (b.handleTable i).capToken.idx ≠ 0
  apart : ∀ i j, i ≠ j → (b.handleTable i).capBacked = true → (b.handleTable j).capBacked = true →
    (b.handleTable i).capSlot ≠ (b.handleTable j).capSlot

theorem handle_inj (hi : i < handleTableSize) (hj : j < handleTableSize)
    (he : BitVec.ofNat 32 (handleBase + i) = BitVec.ofNat 32 (handleBase + j)) : i = j := by
  have hn := congrArg BitVec.toNat he
  simp only [BitVec.toNat_ofNat, handleBase, handleTableSize] at *
  omega

theorem handle_ne_zero (hi : i < handleTableSize) : BitVec.ofNat 32 (handleBase + i) ≠ 0 := by
  intro he
  have hn := congrArg BitVec.toNat he
  simp only [BitVec.toNat_ofNat, handleBase, handleTableSize, BitVec.ofNat_eq_ofNat] at *
  omega

theorem capIndexOf_spec (hf : capIndexOf b h = some i) :
    i < handleTableSize ∧ (b.handleTable i).valid = true ∧ (b.handleTable i).ntHandle = h := by
  have hmem := List.mem_range.1 (List.mem_of_find?_eq_some hf)
  have hp := List.find?_some hf
  rw [Bool.and_eq_true, beq_iff_eq] at hp
  exact ⟨hmem, hp.1, hp.2⟩

theorem freeRecord_spec (hf : freeRecord b = some i) : i < handleTableSize ∧ (b.handleTable i).valid = false := by
  have hmem := List.mem_range.1 (List.mem_of_find?_eq_some hf)
  have hp := List.find?_some hf
  rw [Bool.not_eq_true'] at hp
  exact ⟨hmem, hp⟩

/-- **A handle is found in its record.** -/
theorem Bridge.Sound.indexOf (hs : b.Sound) (hv : (b.handleTable i).valid = true) :
    capIndexOf b (b.handleTable i).ntHandle = some i := by
  obtain ⟨hi, hnum⟩ := hs.numbered i hv
  cases hf : capIndexOf b (b.handleTable i).ntHandle with
  | none =>
    have hno := List.find?_eq_none.1 hf i (List.mem_range.2 hi)
    rw [hv, beq_self_eq_true] at hno
    exact absurd rfl hno
  | some j =>
    obtain ⟨hj, hvj, he⟩ := capIndexOf_spec hf
    rw [hnum, (hs.numbered j hvj).2] at he
    rw [handle_inj hj hi he]

/-! ## Changes -/

/-- **What minting does**: the records are as they were, and so are the entries in use. -/
structure Grows (b b' : Bridge) : Prop where
  records : b'.handleTable = b.handleTable
  pid : b'.currentPid = b.currentPid
  tables : b'.TablesOk
  holds : ∀ slot idx, b.Holds slot idx → b'.Holds slot idx
  dead : ∀ o, Dead b.reg o → Dead b'.reg o

/-- An entry that was not in use is, for the object. -/
structure Minted (b : Bridge) (slot idx : Nat) (b' : Bridge) : Prop where
  holds : b'.Holds slot idx
  object : idx ≠ 0
  fresh : ∀ i j, b.Holds i j → i ≠ slot

/-- **One record has changed at most**, and what is revoked still is. -/
structure Frame (b b' : Bridge) (i : Nat) : Prop where
  others : ∀ j, j ≠ i → b'.handleTable j = b.handleTable j
  pid : b'.currentPid = b.currentPid
  dead : ∀ o, Dead b.reg o → Dead b'.reg o

/-- The record is for the same handle. -/
def SameHandle (entry entry' : HandleRecord) : Prop :=
  entry'.valid = entry.valid ∧ entry'.ntHandle = entry.ntHandle ∧ entry'.type = entry.type

theorem Frame.refl (b : Bridge) (i : Nat) : Frame b b i := ⟨fun _ _ => rfl, rfl, fun _ => id⟩

theorem Frame.trans {b1 b2 b3 : Bridge} (h1 : Frame b1 b2 i) (h2 : Frame b2 b3 i) : Frame b1 b3 i :=
  ⟨fun j hj => (h2.others j hj).trans (h1.others j hj), h2.pid.trans h1.pid, fun o ho => h2.dead o (h1.dead o ho)⟩

theorem Frame.set (b : Bridge) (i : Nat) (entry : HandleRecord) : Frame b (b.set i entry) i :=
  ⟨fun _ => Bridge.set_other, rfl, fun _ => id⟩

theorem Grows.frame (hg : Grows b b') (i : Nat) : Frame b b' i := ⟨fun _ _ => congrFun hg.records _, hg.pid, hg.dead⟩

theorem SameHandle.refl (entry : HandleRecord) : SameHandle entry entry := ⟨rfl, rfl, rfl⟩

theorem Bridge.Sound.grows (hs : b.Sound) (hg : Grows b b') : b'.Sound where
  tables := hg.tables
  numbered i := hg.records ▸ hs.numbered i
  unused i := hg.records ▸ hs.unused i
  backed i hb := by
    rw [hg.records] at hb ⊢
    exact ⟨hg.holds _ _ (hs.backed i hb).1, (hs.backed i hb).2⟩
  apart := hg.records ▸ hs.apart

/-- **A record is written to.** -/
theorem Bridge.Sound.set (hs : b.Sound)
    (hnum : entry.valid = true → i < handleTableSize ∧ entry.ntHandle = .ofNat 32 (handleBase + i))
    (hun : entry.valid = false → entry.capBacked = false)
    (hb : entry.capBacked = true → (b.Holds entry.capSlot entry.capToken.idx ∧ entry.capToken.idx ≠ 0) ∧
      ∀ j ≠ i, (b.handleTable j).capBacked = true → (b.handleTable j).capSlot ≠ entry.capSlot) :
    (b.set i entry).Sound := by
  refine ⟨hs.tables, fun j => ?_, fun j => ?_, fun j => ?_, fun j k hjk => ?_⟩
  · rcases eq_or_ne j i with rfl | hj
    · rw [Bridge.set_self]; exact hnum
    · rw [Bridge.set_other hj]; exact hs.numbered j
  · rcases eq_or_ne j i with rfl | hj
    · rw [Bridge.set_self]; exact hun
    · rw [Bridge.set_other hj]; exact hs.unused j
  · rcases eq_or_ne j i with rfl | hj
    · rw [Bridge.set_self]; exact fun he => (hb he).1
    · rw [Bridge.set_other hj]; exact hs.backed j
  · rcases eq_or_ne j i with rfl | hj
    · rw [Bridge.set_self, Bridge.set_other hjk.symm]
      exact fun he hk => ((hb he).2 k hjk.symm hk).symm
    · rw [Bridge.set_other hj]
      rcases eq_or_ne k i with rfl | hk
      · rw [Bridge.set_self]
        exact fun hbj he => (hb he).2 j hj hbj
      · rw [Bridge.set_other hk]
        exact hs.apart j k hjk

/-- **A record is bound to what has been minted.** -/
theorem Bridge.Sound.rebind (hs : b.Sound) (hg : Grows b b') (hm : Minted b slot tok.idx b')
    (hv : (b.handleTable i).valid = true) (rights : Mask) :
    (b'.set i { b'.handleTable i with
      capSlot := slot, capToken := tok, capBacked := true, capRights := rights }).Sound := by
  have hs' := hs.grows hg
  rw [← congrFun hg.records i] at hv
  refine hs'.set (fun _ => hs'.numbered i hv) (fun hno => absurd (hv.symm.trans hno) nofun) fun _ =>
    ⟨⟨hm.holds, hm.object⟩, fun j _ hj => ?_⟩
  rw [hg.records] at hj ⊢
  exact hm.fresh _ _ (hs.backed j hj).1

/-- **The capability handle table changes**, and every record's entry is still in use. -/
theorem Bridge.Sound.retable {t : HandleTable} (hs : b.Sound) (hok : t.Ok)
    (hkeep : ∀ j, (b.handleTable j).capBacked = true →
      t.Holds (b.handleTable j).capSlot (b.handleTable j).capToken.idx) :
    ({ b with capHt := some t } : Bridge).Sound where
  tables _ he := Option.some.inj he ▸ hok
  numbered := hs.numbered
  unused := hs.unused
  backed j hj := ⟨⟨t, rfl, hkeep j hj⟩, (hs.backed j hj).2⟩
  apart := hs.apart

/-! ## Minting -/

theorem Grows.refl (ht : b.TablesOk) : Grows b b := ⟨rfl, rfl, ht, fun _ _ => id, fun _ => id⟩

/-- The registry alone has changed. -/
theorem grows_reg (ht : b.TablesOk) {r : Registry} (hd : ∀ o, Dead b.reg o → Dead r o) : Grows b { b with reg := r } :=
  ⟨rfl, rfl, ht, fun _ _ => id, hd⟩

/-- **An entry is asked for.** -/
theorem insert_grows {t t' : HandleTable} {r r' : Registry} {htok : Token} (ht : b.TablesOk) (hb : b.capHt = some t)
    (hidx : idx < objectCapacity) (hins : wubuCapHandleInsert t idx 0 r = ((htok, t'), r'))
    (hd : ∀ o, Dead b.reg o → Dead r' o) :
    Grows b { b with capHt := some t', reg := r' } ∧ (htok.isNull = false → idx ≠ 0 →
      Minted b htok.idx idx { b with capHt := some t', reg := r' }) := by
  obtain ⟨-, hnone, hsome⟩ := @insert_spec t r idx 0 (ht t hb) hidx
  rw [hins] at hnone hsome
  dsimp only at hnone hsome
  cases hnull : htok.isNull with
  | true =>
    obtain rfl := hnone hnull
    refine ⟨⟨rfl, rfl, fun _ he => Option.some.inj he ▸ ht _ hb, fun i j ⟨u, hu, h⟩ => ?_, hd⟩, nofun⟩
    exact ⟨_, rfl, Option.some.inj (hb.symm.trans hu) ▸ h⟩
  | false =>
    obtain ⟨hok, hholds, hfresh, hkeeps⟩ := hsome hnull
    refine ⟨⟨rfl, rfl, fun _ he => Option.some.inj he ▸ hok, fun i j ⟨u, hu, h⟩ => ?_, hd⟩, fun _ h0 =>
      ⟨⟨_, rfl, hholds⟩, h0, fun i j ⟨u, hu, h⟩ => ?_⟩⟩
    · exact ⟨_, rfl, hkeeps i j (Option.some.inj (hb.symm.trans hu) ▸ h)⟩
    · exact hfresh i j (Option.some.inj (hb.symm.trans hu) ▸ h)

/-- **`vsl_nt_cap_acquire`.** -/
theorem capAcquire_spec (ht : b.TablesOk) (type : ObjectType) (desired : Mask) :
    Grows b (capAcquire b type desired).2 ∧ ∀ slot tok, (capAcquire b type desired).1 = some (slot, tok) →
      Minted b slot tok.idx (capAcquire b type desired).2 := by
  unfold capAcquire
  split
  · exact ⟨.refl ht, fun _ _ h => absurd h.symm (Option.some_ne_none _)⟩
  rename_i t hb
  dsimp only
  split
  · exact ⟨.refl ht, fun _ _ h => absurd h.symm (Option.some_ne_none _)⟩
  split
  · rename_i r hm
    have hr : r = (malloc b.reg).2 := congrArg Prod.snd hm.symm
    exact ⟨grows_reg ht (hr ▸ fun _ => id), fun _ _ h => absurd h.symm (Option.some_ne_none _)⟩
  rename_i r hm
  have hr : r = (malloc b.reg).2 := congrArg Prod.snd hm.symm
  have hd : ∀ o, Dead b.reg o → Dead r o := hr ▸ fun _ => id
  have hcreate := fun o ho => Dead.create (hd o ho) (kindToCap type) (desiredAccessToCap desired)
    (some (audienceOnly b.pid)) 0 0 b.pid idxNone
  obtain ⟨res, r', hc, hres⟩ := wubuCapCreate_cases (f := Object.deleted) (fun _ _ _ => rfl) (kindToCap type)
    (desiredAccessToCap desired) (some (audienceOnly b.pid)) 0 0 b.pid idxNone r
  rw [hc] at hcreate ⊢
  obtain ⟨rfl, -⟩ | ⟨oslot, h0, hlt, -, rfl, -⟩ := hres
  · exact ⟨grows_reg ht hcreate, fun _ _ h => absurd h.symm (Option.some_ne_none _)⟩
  dsimp only
  generalize htok : tokenPack 1 oslot _ = objtok
  have hidx : objtok.idx = oslot := htok ▸ Nat.mod_eq_of_lt (hlt.trans (by decide))
  split
  · exact ⟨grows_reg ht hcreate, fun _ _ h => absurd h.symm (Option.some_ne_none _)⟩
  rcases hins : wubuCapHandleInsert t objtok.idx 0 r' with ⟨⟨htok', t'⟩, r''⟩
  have hkeep : ∀ o, Dead b.reg o → Dead r'' o := fun o ho => by
    have hptrs : r''.ptrs = r'.ptrs := by
      rw [← @wubuCapHandleInsert_ptrs t objtok.idx r' 0, hins]
    rw [Dead, Registry.view, hptrs]
    exact hcreate o ho
  obtain ⟨hg, hmint⟩ := insert_grows ht hb (hidx ▸ hlt) hins hkeep
  split
  · exact ⟨⟨rfl, rfl, hg.tables, hg.holds, fun o ho => (revoke_dead objtok r'').1 o (hkeep o ho)⟩, fun _ _ h => absurd h.symm (Option.some_ne_none _)⟩
  · rename_i hnull
    refine ⟨hg, fun slot tok he => ?_⟩
    cases he
    exact hmint (Bool.not_eq_true _ |>.mp hnull) (hidx.symm ▸ h0)

/-- **`vsl_nt_cap_make_handle`**, of an object that there is. -/
theorem capMakeHandle_spec (ht : b.TablesOk) (hh : b.Holds slot tok.idx) (h0 : tok.idx ≠ 0) :
    Grows b (capMakeHandle b tok).2 ∧
      (∀ new, (capMakeHandle b tok).1 = some new → Minted b new tok.idx (capMakeHandle b tok).2) ∧
      (b.HasRoom → (capMakeHandle b tok).1.isSome) := by
  obtain ⟨t, hb, hold⟩ := hh
  have hnull : ¬tok.isNull = true := fun hn => h0 (beq_iff_eq.1 hn)
  unfold capMakeHandle
  rw [hb]
  dsimp only
  rw [if_neg hnull]
  rcases hins : wubuCapHandleInsert t tok.idx 0 b.reg with ⟨⟨htok, t'⟩, r'⟩
  have hroom := (@insert_spec t b.reg tok.idx 0 (ht t hb) hold.object).1
  have hptrs : r'.ptrs = b.reg.ptrs := by
    rw [← @wubuCapHandleInsert_ptrs t tok.idx b.reg 0, hins]
  obtain ⟨hg, hmint⟩ := insert_grows ht hb hold.object hins fun o ho => by
    rw [Dead, Registry.view, hptrs]
    exact ho
  rw [hins] at hroom
  refine ⟨hg, fun new he => ?_, fun hroomy => ?_⟩
  · split at he
    · cases he
    · cases he
      exact hmint (Bool.not_eq_true _ |>.mp ‹_›) h0
  · obtain ⟨u, hu, hr⟩ := hroomy
    have hno := hroom (Option.some.inj (hb.symm.trans hu) ▸ hr)
    rw [hno]
    rfl

/-! ## Binding -/

/-- **`vsl_nt_cap_bind`.** -/
theorem capBind_spec (hs : b.Sound) (h : BitVec 32) (type : ObjectType) (desired : Mask) :
    (capBind b h type desired).2.Sound ∧ (capIndexOf b h = none → (capBind b h type desired).2 = b) ∧
      ∀ i, capIndexOf b h = some i → Frame b (capBind b h type desired).2 i ∧
        SameHandle (b.handleTable i) ((capBind b h type desired).2.handleTable i) ∧
        ((b.handleTable i).capBacked = true → (capBind b h type desired).2 = b) := by
  have hstay : b.Sound ∧ (capIndexOf b h = none → b = b) ∧ ∀ i, capIndexOf b h = some i → Frame b b i ∧
      SameHandle (b.handleTable i) (b.handleTable i) ∧ ((b.handleTable i).capBacked = true → b = b) :=
    ⟨hs, fun _ => rfl, fun i _ => ⟨.refl b i, .refl _, fun _ => rfl⟩⟩
  unfold capBind
  split
  · exact hstay
  split
  · exact hstay
  rename_i idx hidx
  split
  · exact hstay
  rename_i hno
  dsimp only
  generalize (if desiredAccessToCap desired = 0 then desired ||| genericRead else desired) = asked
  obtain ⟨hg, hm⟩ := capAcquire_spec hs.tables type asked
  obtain ⟨-, hv, -⟩ := capIndexOf_spec hidx
  rcases hacq : capAcquire b type asked with ⟨_ | ⟨slot, tok⟩, b'⟩
  · rw [hacq] at hg
    refine ⟨hs.grows hg, fun hf => absurd (hf.symm.trans hidx) nofun, fun i hi => ?_⟩
    rw [hidx] at hi
    cases hi
    refine ⟨hg.frame _, ?_, fun hb => absurd hb hno⟩
    rw [congrFun hg.records _]
    exact .refl _
  · rw [hacq] at hg hm
    refine ⟨hs.rebind hg (hm slot tok rfl) hv _, fun hf => absurd (hf.symm.trans hidx) nofun, fun i hi => ?_⟩
    rw [hidx] at hi
    cases hi
    refine ⟨(hg.frame _).trans (.set ..), ?_, fun hb => absurd hb hno⟩
    rw [Bridge.set_self, congrFun hg.records _]
    exact ⟨rfl, rfl, rfl⟩

/-- **`vsl_nt_cap_unbind`.** -/
theorem capUnbind_spec (hs : b.Sound) (hidx : capIndexOf b h = some i) :
    (capUnbind b h).2.Sound ∧ Frame b (capUnbind b h).2 i ∧
      SameHandle (b.handleTable i) ((capUnbind b h).2.handleTable i) ∧
      ((capUnbind b h).2.handleTable i).capBacked = false := by
  obtain ⟨-, hv, -⟩ := capIndexOf_spec hidx
  unfold capUnbind
  split
  · rename_i hnone
    refine ⟨hs, .refl b i, .refl _, Bool.eq_false_iff.2 fun hb => ?_⟩
    obtain ⟨⟨t, ht, -⟩, -⟩ := hs.backed i hb
    exact absurd (hnone.symm.trans ht) nofun
  rename_i t ht
  rw [hidx]
  dsimp only
  split
  · rename_i hno
    exact ⟨hs, .refl b i, .refl _, Bool.eq_false_iff.2 hno⟩
  rename_i hyes
  have hb : (b.handleTable i).capBacked = true := not_not.1 hyes
  obtain ⟨⟨u, hu, hold⟩, -⟩ := hs.backed i hb
  cases ht.symm.trans hu
  obtain ⟨hok, hkeep⟩ := closeSlot_spec (hs.tables t ht) hold
  -- the record first, so that no record needs the entry any more
  have hs' : (b.set i { b.handleTable i with capBacked := false, capSlot := 0, capToken := tokenNull }).Sound :=
    hs.set (fun _ => hs.numbered i hv) (fun _ => rfl) nofun
  refine ⟨hs'.retable hok fun j hj => ?_, ⟨fun j hj => Bridge.set_other hj, rfl, fun _ => id⟩, ?_, ?_⟩
  · have hne : j ≠ i := by
      rintro rfl
      rw [Bridge.set_self] at hj
      cases hj
    rw [Bridge.set_other hne] at hj ⊢
    obtain ⟨⟨u, hu, holdj⟩, -⟩ := hs.backed j hj
    cases ht.symm.trans hu
    exact hkeep _ _ (hs.apart j i hne hj hb) holdj
  · rw [Bridge.set_self]
    exact ⟨rfl, rfl, rfl⟩
  · rw [Bridge.set_self]

/-- **`vsl_nt_cap_alias`**: the second handle is bound to the object of the first, if that has one and there is
room. -/
theorem capAlias_spec (hs : b.Sound) (hsi : capIndexOf b src = some si) (hdi : capIndexOf b dst = some di)
    (hroom : (b.handleTable si).capBacked = true → b.HasRoom) :
    ((b.handleTable si).capBacked = false → capAlias b src dst = (false, b)) ∧
      ((b.handleTable si).capBacked = true → (capAlias b src dst).1 = true ∧ (capAlias b src dst).2.Sound ∧
        Frame b (capAlias b src dst).2 di ∧
        ∃ slot, (capAlias b src dst).2.handleTable di = { b.handleTable di with
          capSlot := slot
          capToken := (b.handleTable si).capToken
          capBacked := true
          capRights := (b.handleTable si).capRights }) := by
  obtain ⟨-, hv, -⟩ := capIndexOf_spec hdi
  unfold capAlias
  refine ⟨fun hno => ?_, fun hb => ?_⟩
  · split
    · rfl
    rw [hsi, hdi]
    dsimp only
    rw [hno, if_pos Bool.false_ne_true]
  obtain ⟨hold, h0⟩ := hs.backed si hb
  have hsome : ¬b.capHt.isNone = true := by
    obtain ⟨t, ht, -⟩ := hold
    rw [ht]
    nofun
  have hnull : ¬(b.handleTable si).capToken.isNull = true := fun hn => h0 (beq_iff_eq.1 hn)
  obtain ⟨hg, hm, hr⟩ := capMakeHandle_spec hs.tables hold h0
  rw [if_neg hsome, hsi, hdi]
  dsimp only
  rw [if_neg (not_not.2 hb), if_neg hnull]
  obtain ⟨slot, hslot⟩ := Option.isSome_iff_exists.mp (hr (hroom hb))
  rcases hmake : capMakeHandle b (b.handleTable si).capToken with ⟨new, b'⟩
  rw [hmake] at hg hm hslot
  subst hslot
  refine ⟨rfl, hs.rebind hg (hm slot rfl) hv _, (hg.frame di).trans (.set ..), slot, ?_⟩
  rw [Bridge.set_self, hg.records]

/-! ## Allocating and freeing -/

/-- **`vsl_nt_allocate_handle`.** -/
theorem allocateHandle_spec (hs : b.Sound) (vslFd : BitVec 32) (styxFid : BitVec 64) (type : ObjectType) :
    (allocateHandle b vslFd styxFid type).2.Sound ∧
      ((allocateHandle b vslFd styxFid type).1 = 0 ∧ (allocateHandle b vslFd styxFid type).2 = b ∨
        ∃ i, (b.handleTable i).valid = false ∧ Frame b (allocateHandle b vslFd styxFid type).2 i ∧
          capIndexOf (allocateHandle b vslFd styxFid type).2 (allocateHandle b vslFd styxFid type).1 = some i ∧
          ((allocateHandle b vslFd styxFid type).2.handleTable i).type = type) := by
  unfold allocateHandle
  split
  · exact ⟨hs, .inl ⟨rfl, rfl⟩⟩
  rename_i i hi
  obtain ⟨hlt, hv⟩ := freeRecord_spec hi
  dsimp only
  generalize hb' : b.set i _ = b'
  have hs' : b'.Sound := by
    rw [← hb']
    refine hs.set (fun _ => ⟨hlt, rfl⟩) nofun fun he => ?_
    exact absurd ((hs.unused i hv).symm.trans he) nofun
  have hself : b'.handleTable i = { b.handleTable i with
      ntHandle := .ofNat 32 (handleBase + i), vslFd := vslFd, styxFid := styxFid, type := type, valid := true } := by
    rw [← hb', Bridge.set_self]
  have hfind : capIndexOf b' (.ofNat 32 (handleBase + i)) = some i := by
    have hf := hs'.indexOf (i := i) (by rw [hself])
    rwa [hself] at hf
  obtain ⟨hsound, -, hbind⟩ := capBind_spec hs' (.ofNat 32 (handleBase + i)) type (defaultAccessForType type)
  obtain ⟨hframe, ⟨hvalid, hnt, htype⟩, -⟩ := hbind i hfind
  refine ⟨hsound, .inr ⟨i, hv, (hb' ▸ Frame.set b i _).trans hframe, ?_, ?_⟩⟩
  · have hf := hsound.indexOf (i := i) (by rw [hvalid, hself])
    rwa [hnt, hself] at hf
  · rw [htype, hself]

/-- **`vsl_nt_free_handle`.** -/
theorem freeHandle_spec (hs : b.Sound) (h : BitVec 32) :
    (freeHandle b h).2.Sound ∧ (capIndexOf b h = none → (freeHandle b h).2 = b) ∧
      ∀ i, capIndexOf b h = some i → Frame b (freeHandle b h).2 i ∧
        ((freeHandle b h).2.handleTable i).valid = false := by
  unfold freeHandle
  split
  · rename_i hno
    exact ⟨hs, fun _ => rfl, fun i hi => absurd (hno.symm.trans hi) nofun⟩
  rename_i i hi
  obtain ⟨hsound, hframe, -, hun⟩ := capUnbind_spec hs hi
  refine ⟨hsound.set nofun (fun _ => hun) (fun he => absurd (hun.symm.trans he) nofun),
    fun hno => absurd (hno.symm.trans hi) nofun, fun j hj => ?_⟩
  rw [hi] at hj
  cases hj
  exact ⟨hframe.trans (.set ..), by rw [Bridge.set_self]⟩

/-! ## Revoking -/

theorem capRevokeHandle_spec {t : HandleTable} (ht : b.capHt = some t) (hold : t.Holds slot idx)
    (hslot : capSlotOfAny b h = some slot) :
    (∃ r, (capRevokeHandle b h).2 = { b with reg := r } ∧ ∀ o, Dead b.reg o → Dead r o) ∧
      ((capRevokeHandle b h).1 = statusSuccess → Dead (capRevokeHandle b h).2.reg idx) := by
  have hdenied : statusAccessDenied ≠ statusSuccess := by decide
  have hinvalid : statusInvalidHandle ≠ statusSuccess := by decide
  obtain ⟨table, pid, capHt, reg⟩ := b
  subst ht
  unfold capRevokeHandle
  rw [hslot]
  dsimp only
  obtain ⟨hkeep, hdead⟩ := @revokeBySlot_dead t reg _ _ hold
  by_cases hres : (wubuCapHandleResolveBySlot t (Bridge.pid ⟨table, pid, some t, reg⟩) slot
      (if desiredAccessToCap 0x00010000 = 0 then rightDelete else desiredAccessToCap 0x00010000) reg).isNone = true
  · rw [if_pos hres]
    exact ⟨⟨reg, rfl, fun _ => id⟩, fun he => absurd he hdenied⟩
  rw [if_neg hres]
  generalize wubuCapHandleRevokeBySlot t slot reg = res at hkeep hdead ⊢
  obtain ⟨err | _, r⟩ := res
  · cases err with
    | erevoked => exact ⟨⟨r, rfl, hkeep⟩, fun he => absurd he hdenied⟩
    | eperm | enomem | einval => exact ⟨⟨r, rfl, hkeep⟩, fun he => absurd he hinvalid⟩
  · exact ⟨⟨r, rfl, hkeep⟩, fun _ => hdead rfl⟩

/-- **`vsl_nt_cap_revoke_nt`** revokes the object of the handle, if it succeeds. -/
theorem capRevokeNt_spec (hs : b.Sound) (h : BitVec 32) :
    (∃ r, (capRevokeNt b h).2 = { b with reg := r } ∧ ∀ o, Dead b.reg o → Dead r o) ∧
      ((capRevokeNt b h).1 = true → ∃ i, capIndexOf b h = some i ∧ (b.handleTable i).capBacked = true ∧
        Dead (capRevokeNt b h).2.reg (b.handleTable i).capToken.idx) := by
  have hstay : (∃ r, b = { b with reg := r } ∧ ∀ o, Dead b.reg o → Dead r o) := ⟨b.reg, rfl, fun _ => id⟩
  unfold capRevokeNt
  split
  · exact ⟨hstay, nofun⟩
  split
  · exact ⟨hstay, nofun⟩
  rename_i i hi
  split
  · exact ⟨hstay, nofun⟩
  rename_i hyes
  have hb : (b.handleTable i).capBacked = true := not_not.1 hyes
  obtain ⟨⟨t, ht, hold⟩, -⟩ := hs.backed i hb
  -- the entry is none of the handles, and so it is taken for itself
  have hsmall : (b.handleTable i).capSlot < handleBase := (hold.bound.trans_le (hs.tables t ht).bound).trans (by decide)
  have hnat : (BitVec.ofNat 32 (b.handleTable i).capSlot).toNat = (b.handleTable i).capSlot := by
    rw [BitVec.toNat_ofNat]
    exact Nat.mod_eq_of_lt (hsmall.trans (by decide))
  have hslot : capSlotOfAny b (.ofNat 32 (b.handleTable i).capSlot) = some (b.handleTable i).capSlot := by
    have hno : capIndexOf b (.ofNat 32 (b.handleTable i).capSlot) = none := by
      cases hf : capIndexOf b (.ofNat 32 (b.handleTable i).capSlot) with
      | none => rfl
      | some j =>
        obtain ⟨hj, hvj, he⟩ := capIndexOf_spec hf
        have hn := congrArg BitVec.toNat ((hs.numbered j hvj).2.symm.trans he)
        rw [hnat, BitVec.toNat_ofNat] at hn
        simp only [handleBase, handleTableSize] at *
        omega
    have hlive : wubuCapHandleSlotLive t (b.handleTable i).capSlot = true := by
      rw [wubuCapHandleSlotLive, if_neg hold.in_range]
      exact decide_eq_true hold.ne_none
    unfold capSlotOfAny
    rw [ht, hno]
    dsimp only [Option.filter]
    rw [hnat, if_pos hlive]
  obtain ⟨hkeep, hdead⟩ := capRevokeHandle_spec ht hold hslot
  exact ⟨hkeep, fun he => ⟨i, hi, hb, hdead (of_decide_eq_true he)⟩⟩

/-! ## What a handle is authorised for -/

/-- The rights of an object that a request asks for. -/
def neededRights (desired : Mask) : UInt64 :=
  if desiredAccessToCap desired = 0 then rightInspect else desiredAccessToCap desired

/-- **What a bound handle is authorised for**: what its object and its ceiling cover. -/
theorem authorize_iff (hs : b.Sound) (hf : capIndexOf b h = some i) (hb : (b.handleTable i).capBacked = true) :
    capAuthorize b h m = statusSuccess ↔ Reaches b.reg b.pid (b.handleTable i).capToken.idx (neededRights m) ∧
        (b.handleTable i).capRights &&& expandGeneric (b.handleTable i).type m =
          expandGeneric (b.handleTable i).type m := by
  obtain ⟨⟨t, ht, hold⟩, -⟩ := hs.backed i hb
  have hreach := @resolveBySlot_iff t b.reg _ _ b.pid (neededRights m) (hs.tables t ht) hold
  have hobj : (b.capHt.bind fun t =>
      wubuCapHandleResolveBySlot t b.pid (b.handleTable i).capSlot (neededRights m) b.reg) =
        wubuCapHandleResolveBySlot t b.pid (b.handleTable i).capSlot (neededRights m) b.reg := by
    rw [ht, Option.bind_some]
  unfold capAuthorize
  rw [hf]
  dsimp only
  rw [if_neg (not_not.2 hb)]
  change (if (b.capHt.bind fun t =>
      wubuCapHandleResolveBySlot t b.pid (b.handleTable i).capSlot (neededRights m) b.reg).isNone = true then _ else _) =
        _ ↔ _
  rw [hobj, ← hreach]
  have hden : statusAccessDenied ≠ statusSuccess := by decide
  cases wubuCapHandleResolveBySlot t b.pid (b.handleTable i).capSlot (neededRights m) b.reg with
  | none => exact ⟨fun he => absurd he hden, fun hr => absurd hr.1 nofun⟩
  | some o =>
    rw [if_neg (by exact Bool.false_ne_true), and_iff_right (a := (some o).isSome = true) rfl]
    split
    · rename_i hzero
      rw [hzero]
      exact iff_of_true rfl BitVec.and_zero
    · split
      · rename_i hno
        exact ⟨fun he => absurd he hden, fun he => absurd he hno⟩
      · rename_i hyes
        exact ⟨fun _ => not_not.1 hyes, fun _ => rfl⟩

/-- A handle that is not bound is authorised for everything. -/
theorem authorize_unbacked (hf : capIndexOf b h = some i) (hb : (b.handleTable i).capBacked = false) :
    capAuthorize b h m = statusSuccess := by
  unfold capAuthorize
  rw [hf]
  dsimp only
  rw [hb, if_pos Bool.false_ne_true]

end WuBuOS.Nt
