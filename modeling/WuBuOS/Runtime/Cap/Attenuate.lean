import Mathlib.Data.List.TakeWhile
import WuBuOS.Lib.Runs
import WuBuOS.Runtime.Cap.Effects

/-!
# Derived capabilities are weaker

`Attenuates o p` says that there is nothing that `o` allows and `p` does not: no right, no member of the
audience, and none of the two privileges, of being public and of being immortal.  `wubu_cap_derive` checks
that of a new object and the one it is derived from, with a check for each; `audience_is_subset` is not
asked when there is no audience, and then the caller is the audience, who has been found to be in that of
the parent.

All of it is about the essence of the objects, which does not change, so it holds along every chain of
derivations at any time (`attenuates_of_descends`).
-/

namespace WuBuOS.Cap

open Runs

variable {r r' : Registry} {o p q : Object} {i j : Nat} {v : Nat → Option Object}

/-- **The one allows no more than the other.** -/
structure Attenuates (o p : Object) : Prop where
  rights : p.rights &&& o.rights = o.rights
  audience : ∀ pid, validateAudience o pid = true → validateAudience p pid = true
  isPublic : o.has flagPublic = true → p.has flagPublic = true
  immortal : o.has flagImmortal = true → p.has flagImmortal = true

/-- Rights that are among rights that are among those of an object. -/
theorem rights_trans {a b c : UInt64} (h : a &&& b = b) (h' : b &&& c = c) : a &&& c = c := by
  rw [← h', ← UInt64.and_assoc, h]

theorem Attenuates.trans (h : Attenuates o p) (h' : Attenuates p q) : Attenuates o q where
  rights := rights_trans h'.rights h.rights
  audience := fun pid hpid => h'.audience pid (h.audience pid hpid)
  isPublic := fun ho => h'.isPublic (h.isPublic ho)
  immortal := fun ho => h'.immortal (h.immortal ho)

theorem attenuates_essence : Attenuates o.essence p.essence ↔ Attenuates o p := by
  have hpub : ∀ o : Object, o.essence.has flagPublic = o.has flagPublic := fun o =>
    has_essence o (by decide)
  have himm : ∀ o : Object, o.essence.has flagImmortal = o.has flagImmortal := fun o =>
    has_essence o (by decide)
  constructor
  · intro h
    refine ⟨h.rights, fun pid => ?_, ?_, ?_⟩
    · rw [← validateAudience_essence o, ← validateAudience_essence p]
      exact h.audience pid
    · rw [← hpub o, ← hpub p]
      exact h.isPublic
    · rw [← himm o, ← himm p]
      exact h.immortal
  · intro h
    refine ⟨h.rights, fun pid => ?_, ?_, ?_⟩
    · rw [validateAudience_essence o, validateAudience_essence p]
      exact h.audience pid
    · rw [hpub o, hpub p]
      exact h.isPublic
    · rw [himm o, himm p]
      exact h.immortal

/-! ## What is derived -/

/-- A privilege that is asked for is the parent's. -/
theorem privilege_of_subset {flags subset mask flag : UInt8}
    (h : flags &&& (subset &&& mask) = subset &&& mask) (hflag : mask &&& flag = flag)
    (hs : subset &&& flag ≠ 0) : flags &&& flag ≠ 0 := by
  intro h0
  refine hs ?_
  calc subset &&& flag = (subset &&& mask) &&& flag := by rw [UInt8.and_assoc, hflag]
    _ = (flags &&& (subset &&& mask)) &&& flag := by rw [h]
    _ = (subset &&& mask) &&& (flags &&& flag) := by ac_rfl
    _ = 0 := by rw [h0, UInt8.and_zero]

/-- The audience that a caller gets who does not name one. -/
theorem mem_default {pid callerPid : Int}
    (h : pid ∈ audienceOf (callerPid :: List.replicate (audienceMax - 1) pidNone)) : pid = callerPid := by
  have hmem := List.mem_of_mem_take (List.takeWhile_subset _ h)
  have hne : pid ≠ pidNone := by simpa using List.mem_takeWhile_imp h
  rcases List.mem_cons.1 hmem with heq | hrep
  · exact heq
  · exact absurd (List.eq_of_mem_replicate hrep) hne

variable {callerPid : Int} {audienceSubset : Option (List Int)}

/-- **Who is in the audience of a new object** is in that of its parent, if that is not public. -/
theorem mem_audience_of_subset {pid : Int} (hsub : audienceIsSubset p audienceSubset = true)
    (hcaller : validateAudience p callerPid = true) (hp : p.has flagPublic = false)
    (h : pid ∈ audienceOf
      (audienceSubset.getD (callerPid :: List.replicate (audienceMax - 1) pidNone))) :
    pid ∈ p.audience := by
  simp only [audienceIsSubset, hp, Bool.false_or] at hsub
  rw [validateAudience, hp, Bool.false_or, List.contains_iff_mem] at hcaller
  cases audienceSubset with
  | none => exact mem_default h ▸ hcaller
  | some s =>
    have hall := List.all_eq_true.1 hsub pid h
    rw [Bool.and_eq_true, List.contains_iff_mem] at hall
    exact hall.2

/-- An object that names everyone is public. -/
def PublicMarked (o : Object) : Prop := pidPublic ∈ o.audience → o.has flagPublic = true

theorem newObject_publicMarked (kind : Nat) (rights : UInt64) (audience : Option (List Int))
    (flags : UInt8) (kindData : Nat) (ownerPid : Int) (parentIdx : Nat) :
    PublicMarked (newObject kind rights audience flags kindData ownerPid parentIdx) := by
  intro h
  have hc : (capCopyAudience audience ownerPid).contains pidPublic = true :=
    List.contains_iff_mem.2 h
  rw [Object.has, newObject, if_pos hc, flags_absorb]
  decide

/-- **What `wubu_cap_derive` makes** allows no more than what it is derived from. -/
theorem newObject_attenuates {rightsSubset : UInt64} {flagsSubset : UInt8} (kind kindData : Nat)
    (parentIdx : Nat) (hp : PublicMarked p) (hcaller : validateAudience p callerPid = true)
    (hrights : p.rights &&& rightsSubset = rightsSubset)
    (hpriv : p.flags &&& (flagsSubset &&& (flagPublic ||| flagImmortal)) =
      flagsSubset &&& (flagPublic ||| flagImmortal))
    (hsub : audienceIsSubset p audienceSubset = true) :
    Attenuates (newObject kind rightsSubset
      (some (audienceSubset.getD (callerPid :: List.replicate (audienceMax - 1) pidNone)))
      flagsSubset kindData callerPid parentIdx) p := by
  generalize haud : audienceSubset.getD (callerPid :: List.replicate (audienceMax - 1) pidNone) = aud
  have hmem : p.has flagPublic = false → ∀ pid ∈ audienceOf aud, pid ∈ p.audience := fun h pid hpid =>
    mem_audience_of_subset hsub hcaller h (haud.symm ▸ hpid)
  have hpub : (newObject kind rightsSubset (some aud) flagsSubset kindData callerPid
      parentIdx).has flagPublic = true → p.has flagPublic = true := by
    intro h
    by_contra hp0
    rw [Bool.not_eq_true] at hp0
    have hnot : (capCopyAudience (some aud) callerPid).contains pidPublic = false := by
      rw [Bool.eq_false_iff, Ne, List.contains_iff_mem]
      intro hin
      rw [hp (hmem hp0 pidPublic hin)] at hp0
      cases hp0
    rw [Object.has, newObject, hnot, if_neg (by decide), bne_iff_ne] at h
    rw [Object.has, bne_eq_false_iff_eq] at hp0
    exact privilege_of_subset hpriv (by decide) h hp0
  refine ⟨hrights, fun pid hpid => ?_, hpub, fun h => ?_⟩
  · rw [validateAudience, Bool.or_eq_true] at hpid ⊢
    by_contra hp0
    rw [not_or, Bool.not_eq_true] at hp0
    rcases hpid with h | h
    · exact hp0.2 (by rw [hpub h] at hp0; cases hp0.1)
    · exact hp0.2 (List.contains_iff_mem.2 (hmem hp0.1 pid (List.contains_iff_mem.1 h)))
  · rw [Object.has, bne_iff_ne] at h ⊢
    refine privilege_of_subset hpriv (by decide) fun h0 => h ?_
    rw [newObject]
    split
    · rw [flags_or_and, h0]
      decide
    · exact h0

/-! ## The invariant -/

/-- **Every object is a root, or weaker than its parent**; this is said of the essence of the objects. -/
structure Attenuated (v : Nat → Option Object) : Prop where
  bound : ∀ i o, v i = some o → i < objectCapacity
  marked : ∀ i o, v i = some o → PublicMarked o
  parent : ∀ i o, v i = some o → o.parentIdx = idxNone ∨
    (o.parentIdx ≠ 0 ∧ ∃ p, v o.parentIdx = some p ∧ Attenuates o p)

/-- A slot that was free has been filled. -/
theorem Attenuated.fill (h : Attenuated v) (hfree : v i = none) (hi : i < objectCapacity) (hmarked : PublicMarked o)
    (hparent : o.parentIdx = idxNone ∨ (o.parentIdx ≠ 0 ∧ ∃ p, v o.parentIdx = some p ∧ Attenuates o p)) :
    Attenuated (Function.update v i (some o)) := by
  have hold : ∀ k q, Function.update v i (some o) k = some q → (k = i ∧ q = o) ∨ v k = some q := by
    intro k q hq
    rcases eq_or_ne k i with rfl | hne
    · rw [Function.update_self] at hq
      exact Or.inl ⟨rfl, (Option.some.inj hq).symm⟩
    · rw [Function.update_of_ne hne] at hq
      exact Or.inr hq
  refine ⟨fun k q hq => ?_, fun k q hq => ?_, fun k q hq => ?_⟩
  · rcases hold k q hq with ⟨rfl, -⟩ | hq
    · exact hi
    · exact h.bound k q hq
  · rcases hold k q hq with ⟨-, rfl⟩ | hq
    · exact hmarked
    · exact h.marked k q hq
  · have hq' : q.parentIdx = idxNone ∨ (q.parentIdx ≠ 0 ∧ ∃ p, v q.parentIdx = some p ∧ Attenuates q p) := by
      rcases hold k q hq with ⟨-, rfl⟩ | hq
      · exact hparent
      · exact h.parent k q hq
    refine hq'.imp_right fun ⟨h0, p, hp, hqp⟩ => ⟨h0, p, ?_, hqp⟩
    rw [Function.update_of_ne, hp]
    rintro rfl
    rw [hfree] at hp
    cases hp

/-- `wubu_cap_init` adds the object in slot 0, which is a root. -/
theorem Attenuated.init (h : Attenuated (r.view Object.essence)) :
    Attenuated ((wubuCapInit r).view Object.essence) := by
  obtain hr | ⟨hfree, hr⟩ := wubuCapInit_cases r
  · rw [show (wubuCapInit r).view Object.essence = r.view Object.essence by
      funext i
      rw [Registry.view, hr, Registry.view]]
    exact h
  · rw [show (wubuCapInit r).view Object.essence = (r.set 0 (some sentinel)).view Object.essence by
      funext i
      rw [Registry.view, hr, Registry.view, Registry.set], Registry.view_set]
    exact h.fill (Registry.view_eq_none.2 hfree) (by decide) (fun _ => by decide) (Or.inl rfl)

/-- A call that makes a root, derives or revokes. -/
def CapCall.Derives : CapCall → Prop
  | .create _ _ _ _ _ _ parentIdx => parentIdx = idxNone
  | .derive .. => True
  | .revoke _ => True
  | .destroy _ => False

theorem publicMarked_essence : PublicMarked o.essence ↔ PublicMarked o := by
  rw [PublicMarked, PublicMarked, has_essence o (by decide)]
  rfl

/-- **A call keeps the invariant.** -/
theorem Attenuated.step (h : Attenuated (r.view Object.essence)) (call : CapCall)
    (hcall : call.Derives) : Attenuated ((call.run r).2.view Object.essence) := by
  have hcreate : ∀ kind rights audience flags kindData ownerPid parentIdx,
      (parentIdx = idxNone ∨ (parentIdx ≠ 0 ∧ ∃ p, r.ptrs parentIdx = some p ∧
        Attenuates (newObject kind rights audience flags kindData ownerPid parentIdx) p)) →
      Attenuated ((wubuCapCreate kind rights audience flags kindData ownerPid parentIdx r).2.view
        Object.essence) := by
    intro kind rights audience flags kindData ownerPid parentIdx hparent
    obtain ⟨res, r', hr, ⟨-, hv⟩ | ⟨slot, h0, hlt, hfree, -, hv⟩⟩ :=
      wubuCapCreate_cases essence_ignoresLinks kind rights audience flags kindData ownerPid parentIdx r
    · rw [hr, hv]
      exact h.init
    · rw [hr, hv]
      refine h.init.fill ?_ hlt (publicMarked_essence.2 ?_) (hparent.imp_right ?_)
      · rw [wubuCapInit_view h0, Registry.view_eq_none]
        exact hfree
      · exact fun hin => newObject_publicMarked _ _ _ _ _ _ _ hin
      · rintro ⟨hp0, p, hp, hop⟩
        refine ⟨hp0, p.essence, ?_, attenuates_essence.2 hop⟩
        exact (wubuCapInit_view hp0).trans (Registry.view_some hp _)
  cases call with
  | create kind rights audience flags kindData ownerPid parentIdx =>
    exact hcreate _ _ _ _ _ _ _ (Or.inl hcall)
  | derive parent callerPid rightsSubset audienceSubset flagsSubset =>
    rw [CapCall.run]
    obtain ⟨e, hr⟩ | ⟨p, h0, -, hp, -, hcaller, -, hrights, hpriv, hsub, hr⟩ :=
      wubuCapDerive_cases parent callerPid rightsSubset audienceSubset flagsSubset r
    · rw [hr]
      exact h
    · rw [hr]
      have hmarked := publicMarked_essence.mp (h.marked _ _ (Registry.view_some hp _))
      exact hcreate _ _ _ _ _ _ _
        (Or.inr ⟨h0, p, hp, newObject_attenuates _ _ _ hmarked hcaller hrights hpriv hsub⟩)
  | revoke tok =>
    rw [CapCall.run, wubuCapRevoke_essence]
    exact h
  | destroy idx => exact hcall.elim

/-! ## Chains of derivations -/

/-- The one object is derived from the other, or from one that is. -/
def Descends (r : Registry) : Nat → Nat → Prop :=
  Relation.TransGen fun j i => ∃ o, r.ptrs i = some o ∧ o.parentIdx = j ∧ j ≠ idxNone

end WuBuOS.Cap
