import WuBuOS.Lib.Runs
import WuBuOS.Runtime.Cap.Effects

/-!
# What has become of the objects

A slot of the registry is used again once its object has been destroyed, so a slot does not tell which
object is meant.  `World` keeps a history beside the registry: objects are numbered as they are made,
`name` says which one is in a slot, or was there last, and `parent` which one it was made from.
-/

namespace WuBuOS.Cap

open Runs
open Function (update update_of_ne update_self)

variable {r r' : Registry} {i : Nat}

/-- The registry, and what has become of the objects: how many have been made, which of them is in a slot,
which one each was made from, and the tokens that have been given out, with their objects. -/
structure World where
  reg : Registry
  born : Nat
  name : Nat → Nat
  parent : Nat → Option Nat
  issued : List (Token × Nat)

/-- Nothing has been made. -/
def World.empty (mem : Nat → Bool) : World := ⟨.empty mem, 0, fun _ => 0, fun _ => none, []⟩

/-- The slot of the object that a call makes a child of. -/
def CapCall.parentIdx : CapCall → Nat
  | .create _ _ _ _ _ _ parentIdx => parentIdx
  | .derive parent _ _ _ _ => parent.idx
  | .revoke _ => idxNone
  | .destroy _ => idxNone

/-- The object that a call makes a child of. -/
def World.parentOf (w : World) (call : CapCall) : Option Nat :=
  if call.parentIdx ≠ 0 ∧ (w.reg.ptrs call.parentIdx).isSome then some (w.name call.parentIdx) else none

/-- A call, and what has become of the objects then. -/
def World.next (w : World) (call : CapCall) : World :=
  match call.run w.reg with
  | (none, reg) => { w with reg := reg }
  | (some (slot, tok), reg) =>
    { reg := reg
      born := w.born + 1
      name := update w.name slot w.born
      parent := update w.parent w.born (w.parentOf call)
      issued := (tok, w.born) :: w.issued }

/-- A call leads from one world to the next. -/
def worldStep (w : World) (call : CapCall) (w' : World) : Prop := w.next call = w'

/-- **The second object descends from the first.** -/
def World.Descends (w : World) : Nat → Nat → Prop := Relation.TransGen fun p c => w.parent c = some p

/-- **What a call does to the essence of the objects**: nothing but fill slot 0, empty a slot, or fill one
that was free. -/
theorem CapCall.run_cases (call : CapCall) (r : Registry) :
    (∃ r', call.run r = (none, r') ∧ (r'.view Object.essence = r.view Object.essence ∨
      r'.view Object.essence = (wubuCapInit r).view Object.essence ∨
      ∃ i, r'.view Object.essence = update (r.view Object.essence) i none)) ∨
    ∃ slot tok r' e, call.run r = (some (slot, tok), r') ∧ slot ≠ 0 ∧ slot < objectCapacity ∧
      r.ptrs slot = none ∧ tok.idx = slot ∧
      r'.view Object.essence = update ((wubuCapInit r).view Object.essence) slot (some e) := by
  have hcreate : ∀ kind rights audience flags kindData ownerPid parentIdx, ∃ res r',
      wubuCapCreate kind rights audience flags kindData ownerPid parentIdx r = (res, r') ∧
      ((res.toOption = none ∧ r'.view Object.essence = (wubuCapInit r).view Object.essence) ∨
        ∃ slot tok e, res.toOption = some (slot, tok) ∧ slot ≠ 0 ∧ slot < objectCapacity ∧
          r.ptrs slot = none ∧ tok.idx = slot ∧
          r'.view Object.essence = update ((wubuCapInit r).view Object.essence) slot (some e)) := by
    intro kind rights audience flags kindData ownerPid parentIdx
    obtain ⟨res, r', hr, ⟨rfl, hv⟩ | ⟨slot, h0, hlt, hfree, rfl, hv⟩⟩ :=
      wubuCapCreate_cases essence_ignoresLinks kind rights audience flags kindData ownerPid parentIdx r
    · exact ⟨_, r', hr, Or.inl ⟨rfl, hv⟩⟩
    · exact ⟨_, r', hr, Or.inr ⟨slot, _, _, rfl, h0, hlt, hfree, Nat.mod_eq_of_lt (hlt.trans (by decide)), hv⟩⟩
  cases call with
  | create kind rights audience flags kindData ownerPid parentIdx =>
    obtain ⟨res, r', hr, ⟨hres, hv⟩ | ⟨slot, tok, e, hres, h⟩⟩ :=
      hcreate kind rights audience flags kindData ownerPid parentIdx
    · exact Or.inl ⟨r', by rw [run, hr, hres], Or.inr (Or.inl hv)⟩
    · exact Or.inr ⟨slot, tok, r', e, by rw [run, hr, hres], h⟩
  | derive parent callerPid rightsSubset audienceSubset flagsSubset =>
    obtain ⟨e, hd⟩ | ⟨p, -, -, -, -, -, -, -, -, -, hd⟩ :=
      wubuCapDerive_cases parent callerPid rightsSubset audienceSubset flagsSubset r
    · exact Or.inl ⟨r, by rw [run, hd]; rfl, Or.inl rfl⟩
    · obtain ⟨res, r', hr, ⟨hres, hv⟩ | ⟨slot, tok, e, hres, h⟩⟩ := hcreate p.kind rightsSubset
        (some (audienceSubset.getD (callerPid :: List.replicate (audienceMax - 1) pidNone))) flagsSubset
        p.kindData callerPid parent.idx
      · exact Or.inl ⟨r', by rw [run, hd, hr, hres], Or.inr (Or.inl hv)⟩
      · exact Or.inr ⟨slot, tok, r', e, by rw [run, hd, hr, hres], h⟩
  | revoke tok => exact Or.inl ⟨_, rfl, Or.inl (wubuCapRevoke_essence tok r)⟩
  | destroy idx =>
    refine Or.inl ⟨_, rfl, ?_⟩
    rw [wubuCapDestroy]
    split
    · exact Or.inl rfl
    · exact Or.inr (Or.inr ⟨idx, Registry.view_set ..⟩)

/-- **Every object was made after the one that it was made from**, and slot 0 is not revoked. -/
structure World.Sound (w : World) : Prop where
  bound : ∀ i o, w.reg.view Object.essence i = some o → i < objectCapacity
  immortal : ∀ o, w.reg.view Object.essence 0 = some o → o.has flagImmortal = true
  name_lt : ∀ i o, i ≠ 0 → w.reg.view Object.essence i = some o → w.name i < w.born
  parent_lt : ∀ c p, w.parent c = some p → p < c ∧ c < w.born

theorem World.sound_empty (mem : Nat → Bool) : (World.empty mem).Sound := ⟨nofun, nofun, nofun, nofun⟩

variable {w : World}

theorem World.Sound.descends_lt (h : w.Sound) {a b : Nat} (hd : w.Descends a b) : a < b := by
  induction hd with
  | single hp => exact (h.parent_lt _ _ hp).1
  | tail _ hp ih => exact ih.trans (h.parent_lt _ _ hp).1

/-- What is in a slot after `wubu_cap_init` was there before, or is in slot 0. -/
theorem wubuCapInit_essence {e : Object} (h : (wubuCapInit r).view Object.essence i = some e) :
    r.view Object.essence i = some e ∨ (i = 0 ∧ e.has flagImmortal = true) := by
  obtain hr | ⟨-, hr⟩ := wubuCapInit_cases r
  · rw [Registry.view, hr] at h
    exact Or.inl h
  · rw [Registry.view, hr] at h
    rcases eq_or_ne i 0 with rfl | hi
    · rw [update_self, Option.map_some] at h
      exact Or.inr ⟨rfl, Option.some.inj h ▸ by decide⟩
    · rw [update_of_ne hi] at h
      exact Or.inl h

/-- If no object is made, what is in a slot was there before. -/
theorem CapCall.run_none {call : CapCall} (h : call.run r = (none, r')) {e : Object}
    (he : r'.view Object.essence i = some e) :
    r.view Object.essence i = some e ∨ (i = 0 ∧ e.has flagImmortal = true) := by
  obtain ⟨r1, hr, hv⟩ | ⟨slot, tok, r1, e', hr, -⟩ := call.run_cases r
  · obtain rfl : r' = r1 := congrArg Prod.snd (h.symm.trans hr)
    obtain hv | hv | ⟨j, hv⟩ := hv
    · exact Or.inl (hv ▸ he)
    · exact wubuCapInit_essence (hv ▸ he)
    · rw [hv] at he
      rcases eq_or_ne i j with rfl | hij
      · rw [update_self] at he
        cases he
      · rw [update_of_ne hij] at he
        exact Or.inl he
  · cases congrArg Prod.fst (h.symm.trans hr)

/-- If one is made, so was what is in the other slots. -/
theorem CapCall.run_some {call : CapCall} {slot : Nat} {tok : Token} (h : call.run r = (some (slot, tok), r')) :
    slot ≠ 0 ∧ slot < objectCapacity ∧ tok.idx = slot ∧ ∀ i e, i ≠ slot → r'.view Object.essence i = some e →
      r.view Object.essence i = some e ∨ (i = 0 ∧ e.has flagImmortal = true) := by
  obtain ⟨r1, hr, -⟩ | ⟨slot', tok', r1, e', hr, h0, hlt, -, htok, hv⟩ := call.run_cases r
  · cases congrArg Prod.fst (h.symm.trans hr)
  · cases h.symm.trans hr
    refine ⟨h0, hlt, htok, fun i e hi he => ?_⟩
    rw [hv, update_of_ne hi] at he
    exact wubuCapInit_essence he

theorem World.Sound.step (h : w.Sound) (call : CapCall) : (w.next call).Sound := by
  rw [World.next]
  split
  · rename_i r' hr
    refine ⟨fun i o ho => ?_, fun o ho => ?_, fun i o hi ho => ?_, h.parent_lt⟩
    · obtain ho | ⟨rfl, -⟩ := CapCall.run_none hr ho
      · exact h.bound i o ho
      · decide
    · obtain ho | ⟨-, ho⟩ := CapCall.run_none hr ho
      · exact h.immortal o ho
      · exact ho
    · obtain ho | ⟨rfl, -⟩ := CapCall.run_none hr ho
      · exact h.name_lt i o hi ho
      · exact absurd rfl hi
  · rename_i slot tok r' hr
    obtain ⟨h0, hlt, -, hold⟩ := CapCall.run_some hr
    refine ⟨fun i o ho => ?_, fun o ho => ?_, fun i o hi ho => ?_, fun c p hp => ?_⟩
    · rcases eq_or_ne i slot with rfl | hne
      · exact hlt
      · obtain ho | ⟨rfl, -⟩ := hold i o hne ho
        · exact h.bound i o ho
        · decide
    · obtain ho | ⟨-, ho⟩ := hold 0 o h0.symm ho
      · exact h.immortal o ho
      · exact ho
    · dsimp only
      rcases eq_or_ne i slot with rfl | hne
      · rw [update_self]
        exact Nat.lt_succ_self _
      · rw [update_of_ne hne]
        obtain ho | ⟨rfl, -⟩ := hold i o hne ho
        · exact Nat.lt_succ_of_lt (h.name_lt i o hi ho)
        · exact absurd rfl hi
    · dsimp only at hp
      rcases eq_or_ne c w.born with rfl | hne
      · rw [update_self, World.parentOf] at hp
        split at hp
        · rename_i hpar
          cases hp
          obtain ⟨q, hq⟩ := Option.isSome_iff_exists.1 hpar.2
          exact ⟨h.name_lt _ _ hpar.1 (Registry.view_some hq _), Nat.lt_succ_self _⟩
        · cases hp
      · rw [update_of_ne hne] at hp
        exact ⟨(h.parent_lt c p hp).1, Nat.lt_succ_of_lt (h.parent_lt c p hp).2⟩

theorem World.sound_run {mem : Nat → Bool} {calls : List CapCall}
    (h : Run worldStep (World.empty mem) calls w) : w.Sound :=
  h.invariant World.Sound (fun s call t (hstep : s.next call = t) hs => hstep ▸ hs.step call) (World.sound_empty mem)

/-- The world after some calls. -/
def World.after (calls : List CapCall) : World := calls.foldl World.next (.empty fun _ => true)

theorem World.run_after (calls : List CapCall) :
    Run worldStep (World.empty fun _ => true) calls (World.after calls) := run_foldl World.next _ calls

end WuBuOS.Cap
