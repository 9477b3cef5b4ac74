import WuBuOS.Runtime.Cap.Object

/-!
# What the calls do to the registry

A proof about the registry looks at part of every object, `r.view f`.  Creating an object fills a slot
that was free, and links it to its parent, which no view that ignores the links can see.  Revoking one
marks some objects as deleted; what is not about that, nor about links, is the `essence` of an object, and
nothing changes it while the object is there.
-/

namespace WuBuOS.Cap

open Function (update)

universe u

variable {β : Type u} {f : Object → β} {r r' : Registry} {i slot : Nat} {o : Object} {pid : Int}
  {tok : Token} {required : UInt64}

/-- A part of every object. -/
def Registry.view (f : Object → β) (r : Registry) (i : Nat) : Option β := (r.ptrs i).map f

/-- A part of an object in which its links do not appear. -/
def IgnoresLinks (f : Object → β) : Prop :=
  ∀ (o : Object) (first next : Nat), f { o with firstChildIdx := first, nextSiblingIdx := next } = f o

/-- The object, but for whether it is revoked, its links and the mark of a truncated cascade. -/
def Object.essence (o : Object) : Object :=
  { o with
    deleted := false
    generation := 0
    flags := o.flags ||| flagCascadeTruncated
    firstChildIdx := 0
    nextSiblingIdx := 0 }

theorem essence_ignoresLinks : IgnoresLinks Object.essence := fun _ _ _ => rfl

@[simp]
theorem essence_revoked (o : Object) : o.revoked.essence = o.essence := rfl

theorem essence_truncated (o : Object) : { o with flags := o.flags ||| flagCascadeTruncated }.essence = o.essence := by
  rw [Object.essence, Object.essence, UInt8.or_assoc, UInt8.or_self]

theorem flags_or_and (a b c : UInt8) : (a ||| b) &&& c = (a &&& c) ||| (b &&& c) := by
  refine UInt8.toBitVec_inj.1 (BitVec.eq_of_getLsbD_eq fun i _ => ?_)
  simp only [UInt8.toBitVec_and, UInt8.toBitVec_or, BitVec.getLsbD_and, BitVec.getLsbD_or, Bool.and_or_distrib_right]

theorem flags_absorb (a b : UInt8) : (a ||| b) &&& b = b := by
  refine UInt8.toBitVec_inj.1 (BitVec.eq_of_getLsbD_eq fun i _ => ?_)
  simp only [UInt8.toBitVec_and, UInt8.toBitVec_or, BitVec.getLsbD_and, BitVec.getLsbD_or]
  cases a.toBitVec.getLsbD i <;> simp

/-- A flag other than that mark is part of the essence. -/
theorem has_essence (o : Object) {flag : UInt8} (h : flagCascadeTruncated &&& flag = 0) :
    o.essence.has flag = o.has flag := by
  rw [Object.has, Object.has, Object.essence]
  rw [flags_or_and, h, UInt8.or_zero]

theorem validateAudience_essence (o : Object) (pid : Int) :
    validateAudience o.essence pid = validateAudience o pid := by
  rw [validateAudience, validateAudience, has_essence o (by decide)]
  rfl

theorem Registry.view_some (h : r.ptrs i = some o) (f : Object → β) : r.view f i = some (f o) := by
  rw [Registry.view, h, Option.map_some]

theorem Registry.view_eq_some {b : β} (h : r.view f i = some b) : ∃ o, r.ptrs i = some o ∧ f o = b :=
  Option.map_eq_some_iff.1 h

theorem Registry.view_eq_none : r.view f i = none ↔ r.ptrs i = none := Option.map_eq_none_iff

theorem Registry.view_set (r : Registry) (i : Nat) (o : Option Object) (f : Object → β) :
    (r.set i o).view f = update (r.view f) i (o.map f) := by
  funext j
  show (update r.ptrs i o j).map f = _
  rcases eq_or_ne j i with rfl | hj
  · rw [Function.update_self, Function.update_self]
  · rw [Function.update_of_ne hj, Function.update_of_ne hj, Registry.view]

/-- Writing to an object does not change a view of it that does not see what is written. -/
theorem Registry.view_set_same (h : r.ptrs i = some o) {o' : Object} (hf : f o' = f o) :
    (r.set i (some o')).view f = r.view f := by
  rw [Registry.view_set, Option.map_some, hf, ← Registry.view_some h f, Function.update_eq_self]

/-! ## Resolving -/

/-- **What resolving asks for.** -/
theorem wubuCapResolve_iff : wubuCapResolve pid tok required r = some i ↔
      tok.idx = i ∧ i ≠ 0 ∧ i < objectCapacity ∧ ∃ o, r.ptrs i = some o ∧ o.deleted = false ∧
        o.generation = tok.gen ∧ validateAudience o pid = true ∧ o.rights &&& required = required := by
  constructor
  · intro h
    rw [wubuCapResolve] at h
    split at h
    · cases h
    rename_i hidx
    split at h
    · cases h
    rename_i o ho
    split at h
    · cases h
    rename_i hdel
    split at h
    · cases h
    rename_i hgen
    split at h
    · cases h
    rename_i haud
    split at h
    · cases h
    rename_i hrights
    cases h
    rw [not_or, Nat.not_le] at hidx
    exact ⟨rfl, hidx.1, hidx.2, o, ho, by simpa using hdel, not_not.1 hgen, by simpa using haud, not_not.1 hrights⟩
  · rintro ⟨rfl, h0, hlt, o, ho, hdel, hgen, haud, hrights⟩
    rw [wubuCapResolve, if_neg (by omega), ho]
    simp [hdel, hgen, haud, hrights]

/-! ## Creating -/

/-- `wubu_cap_init` fills slot 0, if it does anything. -/
theorem wubuCapInit_cases (r : Registry) : (wubuCapInit r).ptrs = r.ptrs ∨
      (r.ptrs 0 = none ∧ (wubuCapInit r).ptrs = update r.ptrs 0 (some sentinel)) := by
  rw [wubuCapInit]
  split
  · exact Or.inl rfl
  · rename_i hnone
    rw [malloc]
    cases r.mem 0 with
    | true => exact Or.inr ⟨by simpa using hnone, rfl⟩
    | false => exact Or.inl rfl

theorem wubuCapInit_ptrs (hi : i ≠ 0) : (wubuCapInit r).ptrs i = r.ptrs i := by
  obtain h | ⟨-, h⟩ := wubuCapInit_cases r
  · rw [h]
  · rw [h, Function.update_of_ne hi]

theorem wubuCapInit_view (hi : i ≠ 0) : (wubuCapInit r).view f i = r.view f i := by
  rw [Registry.view, wubuCapInit_ptrs hi, Registry.view]

theorem findFree_spec {n : Nat} (h : findFree r n i = some slot) : i ≤ slot ∧ slot < i + n ∧ r.ptrs slot = none := by
  induction n generalizing i with
  | zero => cases h
  | succ n ih =>
    rw [findFree] at h
    split at h
    · rename_i hnone
      cases h
      exact ⟨Nat.le_refl _, by omega, Option.isNone_iff_eq_none.1 hnone⟩
    · obtain ⟨hlo, hhi, hfree⟩ := ih h
      exact ⟨by omega, by omega, hfree⟩

theorem capFindFreeSlot_spec (h : capFindFreeSlot r = some slot) :
    slot ≠ 0 ∧ slot < objectCapacity ∧ r.ptrs slot = none := by
  obtain ⟨hlo, hhi, hfree⟩ := findFree_spec h
  rw [objectCapacity] at *
  exact ⟨by omega, by omega, hfree⟩

/-- Linking a child to its parent changes nothing but links. -/
theorem wubuCapLinkChild_view (hf : IgnoresLinks f) (parentIdx childIdx : Nat) :
    (wubuCapLinkChild parentIdx childIdx r).view f = r.view f := by
  rw [wubuCapLinkChild]
  split
  · rfl
  split
  · rename_i parent child hparent hchild
    dsimp only
    have h1 : (r.set childIdx (some { child with nextSiblingIdx := parent.firstChildIdx })).view f = r.view f :=
      r.view_set_same hchild (hf child _ _)
    generalize r.set childIdx (some { child with nextSiblingIdx := parent.firstChildIdx }) = r1 at *
    rw [← h1]
    obtain ⟨p, hp, -⟩ : ∃ p, r1.ptrs parentIdx = some p ∧ f p = f parent :=
      Registry.view_eq_some (by rw [h1, Registry.view_some hparent f])
    rw [hp, Option.map_some]
    exact r1.view_set_same hp (hf p _ _)
  · rfl

/-- **What `wubu_cap_create` does**, once there is slot 0: nothing, or a free slot is filled. -/
theorem wubuCapCreate_cases (hf : IgnoresLinks f) (kind : Nat) (rights : UInt64)
    (audience : Option (List Int)) (flags : UInt8) (kindData : Nat) (ownerPid : Int) (parentIdx : Nat)
    (r : Registry) :
    ∃ res r', wubuCapCreate kind rights audience flags kindData ownerPid parentIdx r = (res, r') ∧
      ((res = .error .enomem ∧ r'.view f = (wubuCapInit r).view f) ∨
        ∃ slot, slot ≠ 0 ∧ slot < objectCapacity ∧ r.ptrs slot = none ∧ res = .ok (slot, tokenPack 1 slot
            (newObject kind rights audience flags kindData ownerPid parentIdx).flags) ∧
          r'.view f = update ((wubuCapInit r).view f) slot
            (some (f (newObject kind rights audience flags kindData ownerPid parentIdx)))) := by
  rw [wubuCapCreate, malloc]
  cases (wubuCapInit r).mem 0 with
  | false => exact ⟨_, _, rfl, Or.inl ⟨rfl, rfl⟩⟩
  | true =>
    dsimp only
    split
    · exact ⟨_, _, rfl, Or.inl ⟨rfl, rfl⟩⟩
    · rename_i slot hslot
      obtain ⟨h0, hlt, hfree⟩ := capFindFreeSlot_spec hslot
      rw [show Registry.ptrs _ slot = (wubuCapInit r).ptrs slot from rfl, wubuCapInit_ptrs h0] at hfree
      refine ⟨_, _, rfl, Or.inr ⟨slot, h0, hlt, hfree, rfl, ?_⟩⟩
      rw [wubuCapLinkChild_view hf, Registry.view_set]
      rfl

/-- **What `wubu_cap_derive` does**: nothing, or what `wubu_cap_create` does, for an object that may have
no more than the one it is derived from. -/
theorem wubuCapDerive_cases (parent : Token) (callerPid : Int) (rightsSubset : UInt64)
    (audienceSubset : Option (List Int)) (flagsSubset : UInt8) (r : Registry) :
    (∃ e, wubuCapDerive parent callerPid rightsSubset audienceSubset flagsSubset r = (.error e, r)) ∨
      ∃ p, parent.idx ≠ 0 ∧ parent.idx < objectCapacity ∧ r.ptrs parent.idx = some p ∧
        p.deleted = false ∧ validateAudience p callerPid = true ∧ p.rights &&& rightDerive ≠ 0 ∧
        p.rights &&& rightsSubset = rightsSubset ∧
        p.flags &&& (flagsSubset &&& (flagPublic ||| flagImmortal)) = flagsSubset &&& (flagPublic ||| flagImmortal) ∧
        audienceIsSubset p audienceSubset = true ∧
        wubuCapDerive parent callerPid rightsSubset audienceSubset flagsSubset r = wubuCapCreate p.kind rightsSubset
            (some (audienceSubset.getD (callerPid :: List.replicate (audienceMax - 1) pidNone)))
            flagsSubset p.kindData callerPid parent.idx r := by
  rw [wubuCapDerive, capDeriveInner]
  split
  · exact Or.inl ⟨_, rfl⟩
  rename_i hidx
  split
  · exact Or.inl ⟨_, rfl⟩
  rename_i p hp
  split
  · exact Or.inl ⟨_, rfl⟩
  rename_i hdel
  split
  · exact Or.inl ⟨_, rfl⟩
  rename_i haud
  split
  · exact Or.inl ⟨_, rfl⟩
  rename_i hderive
  split
  · exact Or.inl ⟨_, rfl⟩
  rename_i hrights
  dsimp only
  split
  · exact Or.inl ⟨_, rfl⟩
  rename_i hpriv
  split
  · exact Or.inl ⟨_, rfl⟩
  rename_i hsub
  rw [not_or, Nat.not_le] at hidx
  exact Or.inr ⟨p, hidx.1, hidx.2, hp, by simpa using hdel, by simpa using haud, hderive,
    not_not.1 hrights, not_not.1 hpriv, by simpa using hsub, rfl⟩

/-! ## Revoking -/

theorem cascadeLoop_essence {fuel tail count : Nat} {queue : List Nat} {truncated : Bool} :
    (cascadeLoop fuel queue tail truncated count r).2.view Object.essence = r.view Object.essence := by
  induction fuel generalizing queue tail truncated count r with
  | zero => rfl
  | succ fuel ih =>
    cases queue with
    | nil => rfl
    | cons idx queue =>
      rw [cascadeLoop]
      split
      · exact ih
      · rename_i obj hobj
        split
        · exact ih
        · dsimp only
          rw [ih]
          split
          · rfl
          · exact r.view_set_same hobj (essence_revoked obj)

theorem wubuCapRevokeCascade_essence (rootIdx : Nat) :
    (wubuCapRevokeCascade rootIdx r).2.view Object.essence = r.view Object.essence := by
  rw [wubuCapRevokeCascade]
  split
  · rfl
  split
  · rfl
  rename_i root hroot
  dsimp only
  generalize hl : cascadeLoop _ _ _ _ _ r = l
  obtain ⟨⟨truncated, count⟩, r'⟩ := l
  have hess : r'.view Object.essence = r.view Object.essence := by
    have h := @cascadeLoop_essence r revokeCascadeMax
      (siblings r.ptrs revokeCascadeMax root.firstChildIdx).1.length 0
      (siblings r.ptrs revokeCascadeMax root.firstChildIdx).1
      ((siblings r.ptrs revokeCascadeMax root.firstChildIdx).2 != .done)
    rwa [hl] at h
  split
  · obtain ⟨o, ho, -⟩ := Registry.view_eq_some
      (show r'.view Object.essence rootIdx = some root.essence by rw [hess, Registry.view_some hroot])
    rw [ho, Option.map_some, r'.view_set_same ho (essence_truncated o), hess]
  · exact hess

/-- **Revoking changes nothing of what an object is.** -/
theorem wubuCapRevoke_essence (tok : Token) (r : Registry) :
    (wubuCapRevoke tok r).2.view Object.essence = r.view Object.essence := by
  rw [wubuCapRevoke]
  split
  · rfl
  split
  · rfl
  rename_i obj hobj
  split
  · rfl
  split
  · rfl
  have h1 := r.view_set_same hobj (essence_revoked obj)
  split
  · rw [← h1]
    exact wubuCapRevokeCascade_essence tok.idx
  · exact h1

/-! ## Calls -/

/-- A call on the registry. -/
inductive CapCall
  | create (kind : Nat) (rights : UInt64) (audience : Option (List Int)) (flags : UInt8) (kindData : Nat)
      (ownerPid : Int) (parentIdx : Nat)
  | derive (parent : Token) (callerPid : Int) (rightsSubset : UInt64)
      (audienceSubset : Option (List Int)) (flagsSubset : UInt8)
  | revoke (tok : Token)
  | destroy (idx : Nat)

/-- What a call does; the slot and the token of what it has created. -/
def CapCall.run (r : Registry) : CapCall → Option (Nat × Token) × Registry
  | .create kind rights audience flags kindData ownerPid parentIdx =>
    let res := wubuCapCreate kind rights audience flags kindData ownerPid parentIdx r
    (res.1.toOption, res.2)
  | .derive parent callerPid rightsSubset audienceSubset flagsSubset =>
    let res := wubuCapDerive parent callerPid rightsSubset audienceSubset flagsSubset r
    (res.1.toOption, res.2)
  | .revoke tok => (none, (wubuCapRevoke tok r).2)
  | .destroy idx => (none, wubuCapDestroy idx r)

end WuBuOS.Cap
