import WuBuOS.Runtime.Cap.Handle

/-!
# Handles by their slots

The part of `runtime/wubu_cap/wubu_cap_handle.c` in which an entry of the handle table is named by its slot
alone.  The token is made up from the entry, so its generation always agrees.

`Reaches` is what it takes for a process to get at an object; `resolveBySlot_iff` says that resolving a slot
asks for just that of the object that the entry is for.
-/

namespace WuBuOS.Cap

open Linked
open Function (update_of_ne update_self)

/-! ## The calls -/

def wubuCapHandleSlotLive (t : HandleTable) (slot : Nat) : Bool :=
  if slot < 1 ∨ t.capacity ≤ slot then false else (t.entries slot).objectIdx ≠ idxNone

def wubuCapHandleResolveBySlot (t : HandleTable) (callerPid : Int) (slot : Nat) (required : UInt64)
    (r : Registry) : Option Nat :=
  if slot < 1 ∨ t.capacity ≤ slot then none
  else
    let e := t.entries slot
    if e.objectIdx = idxNone then none
    else wubuCapHandleResolve t callerPid (tokenPack e.localGen slot e.tokenFlags) required r

def wubuCapHandleRevokeBySlot (t : HandleTable) (slot : Nat) (r : Registry) : Except CapError Unit × Registry :=
  if slot < 1 ∨ t.capacity ≤ slot then (.error .einval, r)
  else
    let e := t.entries slot
    if e.objectIdx = idxNone then (.error .einval, r)
    else
      match r.ptrs e.objectIdx with
      | none => (.error .erevoked, r)
      | some obj =>
        if obj.deleted then (.error .erevoked, r)
        else
          match wubuCapRevoke (tokenPack obj.generation e.objectIdx e.tokenFlags) r with
          | (.error err, r) => (.error err, r)
          | (.ok _, r) => (.ok (), r)

def wubuCapHandleCloseSlot (t : HandleTable) (slot : Nat) : Except CapError Unit × HandleTable :=
  if slot < 1 ∨ t.capacity ≤ slot then (.error .einval, t)
  else
    let e := t.entries slot
    if e.objectIdx = idxNone then (.error .einval, t)
    else wubuCapHandleClose t (tokenPack e.localGen slot e.tokenFlags)

/-! ## Entries in use -/

variable {t t' : HandleTable} {r r' : Registry} {slot idx i : Nat} {pid : Int} {required : UInt64} {flags : UInt8}

/-- The entry is in use, for the object in that slot of the registry. -/
structure HandleTable.Holds (t : HandleTable) (slot idx : Nat) : Prop where
  pos : 1 ≤ slot
  bound : slot < t.capacity
  entry : (t.entries slot).objectIdx = idx
  object : idx < objectCapacity

/-- The mark of an entry that is not in use is no slot of the registry. -/
theorem ne_idxNone (h : idx < objectCapacity) : idx ≠ idxNone := by
  have hcap : objectCapacity < idxNone := by decide
  exact Nat.ne_of_lt (h.trans hcap)

theorem HandleTable.Holds.ne_none (h : t.Holds slot idx) : (t.entries slot).objectIdx ≠ idxNone := by
  rw [h.entry]
  exact ne_idxNone h.object

theorem HandleTable.Holds.pack_idx (h : t.Holds slot idx) (ht : t.Ok) (g : UInt32) (f : UInt8) :
    (tokenPack g slot f).idx = slot :=
  Nat.mod_eq_of_lt ((h.bound.trans_le ht.bound).trans (by decide))

theorem HandleTable.Holds.in_range (h : t.Holds slot idx) : ¬(slot < 1 ∨ t.capacity ≤ slot) := by
  rintro (hlt | hle)
  · exact Nat.not_lt_of_le h.pos hlt
  · exact Nat.not_lt_of_le hle h.bound

/-- The process gets at the object, with these rights. -/
def Reaches (r : Registry) (pid : Int) (idx : Nat) (required : UInt64) : Prop :=
  idx ≠ 0 ∧ ∃ o, r.ptrs idx = some o ∧ o.deleted = false ∧ validateAudience o pid = true ∧
    o.rights &&& required = required

/-- **Resolving a slot** asks for nothing but that the process gets at the object. -/
theorem resolveBySlot_iff (ht : t.Ok) (h : t.Holds slot idx) :
    (wubuCapHandleResolveBySlot t pid slot required r).isSome ↔ Reaches r pid idx required := by
  have hpack : ∀ g f, (tokenPack g idx f).idx = idx := fun g f => Nat.mod_eq_of_lt (h.object.trans (by decide))
  rw [wubuCapHandleResolveBySlot, if_neg h.in_range]
  rw [if_neg h.ne_none, wubuCapHandleResolve, h.pack_idx ht, if_neg (Nat.not_le_of_lt h.bound)]
  have hgen : (tokenPack (t.entries slot).localGen slot (t.entries slot).tokenFlags).gen = (t.entries slot).localGen := rfl
  rw [if_neg h.ne_none, h.entry, hgen, if_neg (not_not.2 rfl), Option.isSome_iff_exists]
  constructor
  · rintro ⟨i, hi⟩
    obtain ⟨hidx, h0, -, o, ho, hdel, -, haud, hrights⟩ := wubuCapResolve_iff.1 hi
    rw [hpack] at hidx
    subst hidx
    exact ⟨h0, o, ho, hdel, haud, hrights⟩
  · rintro ⟨h0, o, ho, hdel, haud, hrights⟩
    refine ⟨idx, wubuCapResolve_iff.2 ⟨hpack _ _, h0, h.object, o, ho, hdel, ?_, haud, hrights⟩⟩
    rw [ho]
    rfl

/-! ## What the calls do to the entries -/

/-- There is an entry to be had. -/
def HandleTable.HasRoom (t : HandleTable) (r : Registry) : Prop :=
  t.nextFree ≠ handleNone ∨ t.capacity < handleMax ∧ r.mem 0 = true

instance (t : HandleTable) (r : Registry) : Decidable (t.HasRoom r) := inferInstanceAs (Decidable (_ ∨ _))

/-- **What is new after an insertion**: an entry, which was not in use. -/
structure Inserted (t : HandleTable) (idx slot : Nat) (t' : HandleTable) : Prop where
  ok : t'.Ok
  holds : t'.Holds slot idx
  fresh : ∀ i j, t.Holds i j → i ≠ slot
  keeps : ∀ i j, t.Holds i j → t'.Holds i j

theorem take_inserted (ht : t.Ok) (hfree : t.nextFree ≠ handleNone) (hidx : idx < objectCapacity) :
    (t.take idx flags).1.isNull = false ∧ Inserted t idx (t.take idx flags).1.idx (t.take idx flags).2 := by
  have hne := ne_idxNone hidx
  obtain ⟨l, hl, hmem⟩ := ht.free
  cases l with
  | nil => exact absurd hl hfree
  | cons a l =>
    obtain rfl : t.nextFree = a := hl.1
    obtain ⟨⟨h0, hlt⟩, hnone⟩ := hmem _ List.mem_cons_self
    obtain ⟨hok, hnull, -, -⟩ := @take_ok t idx flags ht hfree hne
    have hslot : (t.take idx flags).1.idx = t.nextFree :=
      Nat.mod_eq_of_lt ((hlt.trans_le ht.bound).trans (by decide))
    have hfresh : ∀ i j, t.Holds i j → i ≠ t.nextFree := by
      rintro i j hij rfl
      exact hij.ne_none hnone
    refine ⟨hnull, hok, ?_, hslot ▸ hfresh, fun i j hij => ⟨hij.pos, hij.bound, ?_, hij.object⟩⟩
    · rw [hslot]
      refine ⟨Nat.one_le_iff_ne_zero.2 h0, hlt, ?_, hidx⟩
      rw [HandleTable.take]
      dsimp only
      rw [update_self]
    · exact (congrArg HEntry.objectIdx (update_of_ne (hfresh i j hij) ..)).trans hij.entry

theorem grow_isSome (h : t.nextFree = handleNone) : (grow t r).1.isSome ↔ t.HasRoom r := by
  rw [grow, HandleTable.HasRoom, h]
  split
  · rename_i hfull
    exact ⟨fun hs => absurd hs Bool.false_ne_true, fun hr => absurd (hr.elim (fun hne => absurd rfl hne) And.left) (Nat.not_lt_of_le hfull)⟩
  · rename_i hlt
    rw [malloc]
    cases r.mem 0 with
    | false => exact ⟨fun hs => absurd hs Bool.false_ne_true, fun hr => hr.elim (fun hne => absurd rfl hne) fun hm => absurd hm.2 Bool.false_ne_true⟩
    | true => exact ⟨fun _ => .inr ⟨Nat.lt_of_not_le hlt, rfl⟩, fun _ => rfl⟩

/-- **`wubu_cap_handle_insert`** takes an entry if there is one to be had. -/
theorem insert_spec (ht : t.Ok) (hidx : idx < objectCapacity) :
    (t.HasRoom r → (wubuCapHandleInsert t idx flags r).1.1.isNull = false) ∧
      ((wubuCapHandleInsert t idx flags r).1.1.isNull = true → (wubuCapHandleInsert t idx flags r).1.2 = t) ∧
      ((wubuCapHandleInsert t idx flags r).1.1.isNull = false →
        Inserted t idx (wubuCapHandleInsert t idx flags r).1.1.idx (wubuCapHandleInsert t idx flags r).1.2) := by
  have hne := ne_idxNone hidx
  rw [wubuCapHandleInsert, if_neg hne]
  split
  · rename_i hnone
    have hroom := @grow_isSome t r hnone
    split
    · rename_i r' hg
      rw [hg] at hroom
      exact ⟨fun h => absurd (hroom.2 h) Bool.false_ne_true, fun _ => rfl, fun h => absurd h.symm Bool.false_ne_true⟩
    · rename_i t' r' hg
      obtain ⟨ht', hfree, hle, hsame⟩ := grow_ok hg ht
      obtain ⟨hnull, hins⟩ := @take_inserted t' idx flags ht' hfree hidx
      have hkeep : ∀ i j, t.Holds i j → t'.Holds i j := fun i j hij =>
        ⟨hij.pos, hij.bound.trans_le hle, (congrArg HEntry.objectIdx (hsame i hij.bound)).trans hij.entry, hij.object⟩
      exact ⟨fun _ => hnull, fun h => absurd (hnull.symm.trans h) Bool.false_ne_true, fun _ =>
        ⟨hins.ok, hins.holds, fun i j hij => hins.fresh i j (hkeep i j hij), fun i j hij =>
          hins.keeps i j (hkeep i j hij)⟩⟩
  · rename_i hfree
    obtain ⟨hnull, hins⟩ := @take_inserted t idx flags ht hfree hidx
    exact ⟨fun _ => hnull, fun h => absurd (hnull.symm.trans h) Bool.false_ne_true, fun _ => hins⟩

/-- **`wubu_cap_handle_close_slot`** leaves the other entries alone. -/
theorem closeSlot_spec (ht : t.Ok) (h : t.Holds slot idx) : (wubuCapHandleCloseSlot t slot).2.Ok ∧
      ∀ i j, i ≠ slot → t.Holds i j → (wubuCapHandleCloseSlot t slot).2.Holds i j := by
  have hslot := h.pack_idx ht (t.entries slot).localGen (t.entries slot).tokenFlags
  rw [wubuCapHandleCloseSlot, if_neg h.in_range]
  rw [if_neg h.ne_none]
  refine ⟨wubuCapHandleClose_ok ht, fun i j hi hij => ?_⟩
  rw [wubuCapHandleClose, hslot, if_neg (Nat.not_le_of_lt h.bound)]
  rw [if_neg h.ne_none]
  refine ⟨hij.pos, hij.bound, ?_, hij.object⟩
  exact (congrArg HEntry.objectIdx (update_of_ne hi ..)).trans hij.entry

/-! ## What is revoked stays revoked -/

/-- There is an object in the slot, and it is revoked. -/
def Dead (r : Registry) (i : Nat) : Prop := r.view Object.deleted i = some true

/-- A revoked object is out of reach. -/
theorem Dead.not_reaches (h : Dead r idx) : ¬Reaches r pid idx required := by
  rintro ⟨-, o', ho', hd', -⟩
  obtain ⟨o, ho, hd⟩ := Registry.view_eq_some h
  rw [ho] at ho'
  cases ho'
  exact absurd (hd'.symm.trans hd) nofun

theorem Dead.init (h : Dead r i) : Dead (wubuCapInit r) i := by
  obtain hr | ⟨hnone, hr⟩ := wubuCapInit_cases r
  · rw [Dead, Registry.view, hr]
    exact h
  · have hi : i ≠ 0 := by
      rintro rfl
      rw [Dead, Registry.view, hnone] at h
      cases h
    rw [Dead, wubuCapInit_view hi]
    exact h

theorem Dead.create (h : Dead r i) (kind : Nat) (rights : UInt64) (audience : Option (List Int)) (flags : UInt8)
    (kindData : Nat) (ownerPid : Int) (parentIdx : Nat) :
    Dead (wubuCapCreate kind rights audience flags kindData ownerPid parentIdx r).2 i := by
  obtain ⟨res, r', hr, ⟨-, hv⟩ | ⟨slot, -, -, hfree, -, hv⟩⟩ := wubuCapCreate_cases (f := Object.deleted)
    (fun _ _ _ => rfl) kind rights audience flags kindData ownerPid parentIdx r
  · rw [hr, Dead, hv]
    exact h.init
  · have hi : i ≠ slot := by
      rintro rfl
      rw [Dead, Registry.view, hfree] at h
      cases h
    rw [hr, Dead, hv, update_of_ne hi]
    exact h.init

theorem Dead.set_revoked (h : Dead r i) (j : Nat) (o : Object) : Dead (r.set j (some o.revoked)) i := by
  rw [Dead, Registry.view_set]
  rcases eq_or_ne i j with rfl | hne
  · exact update_self ..
  · rw [update_of_ne hne]
    exact h

theorem Dead.cascadeLoop {fuel tail count : Nat} {queue : List Nat} {truncated : Bool} (h : Dead r i) :
    Dead (cascadeLoop fuel queue tail truncated count r).2 i := by
  induction fuel generalizing queue tail truncated count r with
  | zero => exact h
  | succ fuel ih =>
    cases queue with
    | nil => exact h
    | cons idx queue =>
      rw [Cap.cascadeLoop]
      split
      · exact ih h
      · rename_i obj hobj
        split
        · exact ih h
        · refine ih ?_
          split
          · exact h
          · exact h.set_revoked idx obj

theorem Dead.cascade (h : Dead r i) (rootIdx : Nat) : Dead (wubuCapRevokeCascade rootIdx r).2 i := by
  rw [wubuCapRevokeCascade]
  split
  · exact h
  split
  · exact h
  rename_i root hroot
  dsimp only
  have hl := @Dead.cascadeLoop r i revokeCascadeMax (siblings r.ptrs revokeCascadeMax root.firstChildIdx).1.length 0
    (siblings r.ptrs revokeCascadeMax root.firstChildIdx).1
    ((siblings r.ptrs revokeCascadeMax root.firstChildIdx).2 != .done) h
  generalize Cap.cascadeLoop _ _ _ _ _ r = l at hl ⊢
  obtain ⟨⟨truncated, count⟩, r'⟩ := l
  split
  · have hview : (r'.set rootIdx ((r'.ptrs rootIdx).map fun o =>
        { o with flags := o.flags ||| flagCascadeTruncated })).view Object.deleted = r'.view Object.deleted := by
      rw [Registry.view_set, Option.map_map]
      exact Function.update_eq_self rootIdx (r'.view Object.deleted)
    rw [Dead, hview]
    exact hl
  · exact hl

/-- **`wubu_cap_revoke`** keeps what is revoked, and if it succeeds, the object is. -/
theorem revoke_dead (tok : Token) (r : Registry) : (∀ i, Dead r i → Dead (wubuCapRevoke tok r).2 i) ∧
      ((wubuCapRevoke tok r).1.isOk → Dead (wubuCapRevoke tok r).2 tok.idx) := by
  rw [wubuCapRevoke]
  split
  · exact ⟨fun _ => id, fun h => absurd h Bool.false_ne_true⟩
  split
  · exact ⟨fun _ => id, fun h => absurd h Bool.false_ne_true⟩
  rename_i obj hobj
  split
  · exact ⟨fun _ => id, fun h => absurd h Bool.false_ne_true⟩
  split
  · exact ⟨fun _ => id, fun h => absurd h Bool.false_ne_true⟩
  have hself : Dead (r.set tok.idx (some obj.revoked)) tok.idx := by
    rw [Dead, Registry.view_set]
    exact update_self ..
  split
  · exact ⟨fun i hi => (hi.set_revoked tok.idx obj).cascade tok.idx, fun _ => hself.cascade tok.idx⟩
  · exact ⟨fun i hi => hi.set_revoked tok.idx obj, fun _ => hself⟩

/-- **`wubu_cap_handle_revoke_by_slot`** does the same to the object that the entry is for. -/
theorem revokeBySlot_dead (h : t.Holds slot idx) : (∀ i, Dead r i → Dead (wubuCapHandleRevokeBySlot t slot r).2 i) ∧
      ((wubuCapHandleRevokeBySlot t slot r).1.isOk → Dead (wubuCapHandleRevokeBySlot t slot r).2 idx) := by
  rw [wubuCapHandleRevokeBySlot, if_neg h.in_range]
  rw [if_neg h.ne_none, h.entry]
  split
  · exact ⟨fun _ => id, nofun⟩
  rename_i obj hobj
  split
  · exact ⟨fun _ => id, nofun⟩
  have hpack : (tokenPack obj.generation idx (t.entries slot).tokenFlags).idx = idx :=
    Nat.mod_eq_of_lt (h.object.trans (by decide))
  have hdead := revoke_dead (tokenPack obj.generation idx (t.entries slot).tokenFlags) r
  rw [hpack] at hdead
  split
  · rename_i hr
    rw [hr] at hdead
    exact ⟨hdead.1, nofun⟩
  · rename_i hr
    rw [hr] at hdead
    exact ⟨hdead.1, fun _ => hdead.2 rfl⟩

end WuBuOS.Cap
