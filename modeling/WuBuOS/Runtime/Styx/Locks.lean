import Mathlib.Data.Set.Basic
import WuBuOS.Lib.Runs

/-!
# Byte-range locks

`runtime/styx_locks.c`.  A table has 32 slots, each for a lock on a range of the bytes of a file.  A range
is kept as its start and its length, and length zero is for all bytes from there on.  Two ranges are
compared by their last bytes, which `styx_lock` computes as `start + length - 1` in 64 bits.

If that does not overflow, the comparison finds every conflict, and the table never grants the same byte
to a writer and to anyone else (`exclusive_of_fits`).  If it does, the last byte comes before the first,
the range looks empty, and nothing conflicts with it (`wrapped_shared`).
-/

namespace WuBuOS.Styx

open Runs
open Function (update update_of_ne update_self)

/-! ## The table -/

/-- `STYX_LOCK_MAX`. -/
def lockMax : Nat := 32

/-- `STYX_LOCK_RDLCK`. -/
def rdlck : Int := 0

/-- `STYX_LOCK_WRLCK`. -/
def wrlck : Int := 1

/-- `STYX_LOCK_UNLCK`. -/
def unlck : Int := 2

/-- `styx_lock_t`. -/
structure Lock where
  qid : UInt64
  owner : Int
  start : UInt64
  length : UInt64
  type : Int
  inUse : Bool
  deriving DecidableEq, Repr

/-- `styx_locktab_t`. -/
abbrev LockTab := Nat → Lock

def styxLocksInit : LockTab := fun _ => ⟨0, 0, 0, 0, 0, false⟩

/-- The last byte of a range. -/
def rangeEnd (start length : UInt64) : UInt64 := if length = 0 then 0 - 1 else start + length - 1

/-- `range`: the last byte of a lock. -/
def Lock.last (l : Lock) : UInt64 := rangeEnd l.start l.length

def overlaps (s₁ e₁ s₂ e₂ : UInt64) : Bool := !(e₁ < s₂ || e₂ < s₁)

/-- The lock is in the way of one that is asked for. -/
def Lock.conflicts (l : Lock) (qid : UInt64) (owner : Int) (start length : UInt64) (type : Int) : Bool :=
  l.inUse && l.qid == qid && l.owner != owner &&
    overlaps start (rangeEnd start length) l.start l.last && (l.type == wrlck || type == wrlck)

/-- The lock is one of these bytes, for this owner. -/
def Lock.same (l : Lock) (qid : UInt64) (owner : Int) (start length : UInt64) : Bool :=
  l.inUse && l.qid == qid && l.owner == owner && l.start == start && l.length == length

/-- The lock is removed by a call of `styx_unlock`. -/
def Lock.unlocked (l : Lock) (qid : UInt64) (owner : Int) (start length : UInt64) : Bool :=
  l.inUse && l.qid == qid && l.owner == owner &&
    overlaps start (rangeEnd start length) l.start l.last &&
    (l.start == start && l.last == rangeEnd start length)

/-- `styx_unlock`; whether it returns `0`. -/
def styxUnlock (t : LockTab) (qid : UInt64) (owner : Int) (start length : UInt64) : Bool × LockTab :=
  let hit := fun i => (t i).unlocked qid owner start length
  ((List.range lockMax).any hit,
    fun i => if i < lockMax ∧ hit i then { t i with inUse := false } else t i)

/-- `styx_lock`; whether it returns `0`. -/
def styxLock (t : LockTab) (qid : UInt64) (owner : Int) (start length : UInt64) (type : Int) :
    Bool × LockTab :=
  if type ≠ unlck ∧ (List.range lockMax).any fun i => (t i).conflicts qid owner start length type then
    (false, t)
  else if type = unlck then styxUnlock t qid owner start length
  else
    match (List.range lockMax).find? fun i => (t i).same qid owner start length with
    | some i => (true, update t i { t i with type := type })
    | none =>
      match (List.range lockMax).find? fun i => !(t i).inUse with
      | some i => (true, update t i ⟨qid, owner, start, length, type, true⟩)
      | none => (false, t)

/-- A call. -/
inductive LockCall
  | lock (qid : UInt64) (owner : Int) (start length : UInt64) (type : Int)
  | unlock (qid : UInt64) (owner : Int) (start length : UInt64)
  deriving DecidableEq, Repr

/-- What a call does; whether it returns `0`. -/
def LockCall.run (t : LockTab) : LockCall → Bool × LockTab
  | .lock qid owner start length type => styxLock t qid owner start length type
  | .unlock qid owner start length => styxUnlock t qid owner start length

/-- A call leads from a table to the next. -/
def lockStep (t : LockTab) (call : LockCall) (t' : LockTab) : Prop := (call.run t).2 = t'

/-! ## The bytes of a lock -/

/-- The bytes that a lock is for. -/
def Lock.bytes (l : Lock) : Set Nat :=
  { x | l.start.toNat ≤ x ∧ x < 2 ^ 64 ∧ (l.length ≠ 0 → x < l.start.toNat + l.length.toNat) }

/-- **No byte is granted to two owners**, unless both are readers. -/
def Exclusive (t : LockTab) : Prop :=
  ∀ i < lockMax, ∀ j < lockMax, (t i).inUse = true → (t j).inUse = true → (t i).qid = (t j).qid →
    (t i).owner ≠ (t j).owner → ∀ x ∈ (t i).bytes, x ∈ (t j).bytes →
      (t i).type = rdlck ∧ (t j).type = rdlck

/-- A range that ends with the file. -/
def FitsRange (start length : UInt64) : Prop := start.toNat + length.toNat ≤ 2 ^ 64

instance (start length : UInt64) : Decidable (FitsRange start length) :=
  inferInstanceAs (Decidable (start.toNat + length.toNat ≤ 2 ^ 64))

/-- One of the two types of a lock. -/
def IsLockType (type : Int) : Prop := type = rdlck ∨ type = wrlck

/-- **The call does not ask for bytes beyond the last one**, nor for a lock that there is not. -/
def LockCall.Fits : LockCall → Prop
  | .lock _ _ start length type => type = unlck ∨ (IsLockType type ∧ FitsRange start length)
  | .unlock .. => True

/-- What is kept of every lock in the table. -/
def Lock.Fits (l : Lock) : Prop := IsLockType l.type ∧ FitsRange l.start l.length

variable {t : LockTab} {l l' : Lock} {start length qid : UInt64} {owner type : Int} {i : Nat}

theorem rangeEnd_toNat (h : FitsRange start length) : (rangeEnd start length).toNat =
      if length = 0 then 2 ^ 64 - 1 else start.toNat + length.toNat - 1 := by
  rw [rangeEnd]
  split
  · decide
  · rename_i hne
    have hpos : length.toNat ≠ 0 := fun h0 => hne (UInt64.toNat_inj.1 h0)
    rw [FitsRange] at h
    rw [UInt64.toNat_sub, UInt64.toNat_add]
    have hone : (1 : UInt64).toNat = 1 := rfl
    omega

/-- A byte of a lock is not behind its last one. -/
theorem Lock.le_last (h : FitsRange l.start l.length) {x : Nat} (hx : x ∈ l.bytes) :
    l.start.toNat ≤ x ∧ x ≤ l.last.toNat := by
  obtain ⟨hlo, hhi, hlen⟩ := hx
  refine ⟨hlo, ?_⟩
  rw [Lock.last, rangeEnd_toNat h]
  split
  · omega
  · have := hlen ‹_›
    omega

/-- **Two locks that have a byte in common overlap.** -/
theorem overlaps_of_mem (h : FitsRange l.start l.length) (h' : FitsRange l'.start l'.length) {x : Nat}
    (hx : x ∈ l.bytes) (hx' : x ∈ l'.bytes) : overlaps l.start l.last l'.start l'.last = true := by
  obtain ⟨hlo, hhi⟩ := Lock.le_last h hx
  obtain ⟨hlo', hhi'⟩ := Lock.le_last h' hx'
  rw [overlaps]
  simp only [Bool.not_eq_true', Bool.or_eq_false_iff, decide_eq_false_iff_not, UInt64.lt_iff_toNat_lt]
  omega

/-! ## What a call does -/

/-- `styx_unlock` does no more than remove locks. -/
theorem styxUnlock_slot (i : Nat) : (styxUnlock t qid owner start length).2 i = t i ∨
      (styxUnlock t qid owner start length).2 i = { t i with inUse := false } := by
  rw [styxUnlock]
  dsimp only
  split
  · exact Or.inr rfl
  · exact Or.inl rfl

theorem styxUnlock_refused (h : (styxUnlock t qid owner start length).1 = false) :
    (styxUnlock t qid owner start length).2 = t := by
  funext i
  simp only [styxUnlock, List.any_eq_false, List.mem_range] at h ⊢
  rw [if_neg]
  rintro ⟨hi, hhit⟩
  exact h i hi hhit

/-- **What `styx_lock` does**: it is refused, or a call of `styx_unlock`, or one slot is then a lock of
these bytes, which no other is in the way of. -/
theorem styxLock_cases (t : LockTab) (qid : UInt64) (owner : Int) (start length : UInt64) (type : Int) :
    (styxLock t qid owner start length type = (false, t)) ∨
    (type = unlck ∧ styxLock t qid owner start length type = styxUnlock t qid owner start length) ∨
    (type ≠ unlck ∧ (∀ i < lockMax, (t i).conflicts qid owner start length type = false) ∧
      ∃ i < lockMax, styxLock t qid owner start length type =
        (true, update t i ⟨qid, owner, start, length, type, true⟩)) := by
  rw [styxLock]
  split
  · exact Or.inl rfl
  rename_i hfree
  split
  · exact Or.inr (Or.inl ⟨‹_›, rfl⟩)
  rename_i htype
  have hclear : ∀ i < lockMax, (t i).conflicts qid owner start length type = false := by
    intro i hi
    by_contra hc
    exact hfree ⟨htype, List.any_eq_true.2 ⟨i, List.mem_range.2 hi, by simpa using hc⟩⟩
  split
  · rename_i i hfind
    have hi := List.mem_range.1 (List.mem_of_find?_eq_some hfind)
    have hsame := List.find?_some hfind
    simp only [Lock.same, Bool.and_eq_true, beq_iff_eq] at hsame
    obtain ⟨⟨⟨⟨huse, hqid⟩, howner⟩, hstart⟩, hlength⟩ := hsame
    refine Or.inr (Or.inr ⟨htype, hclear, i, hi, ?_⟩)
    rw [← hqid, ← howner, ← hstart, ← hlength, ← huse]
  · split
    · rename_i i hfind
      have hi := List.mem_range.1 (List.mem_of_find?_eq_some hfind)
      exact Or.inr (Or.inr ⟨htype, hclear, i, hi, rfl⟩)
    · exact Or.inl rfl

/-- **A refused call leaves the table unchanged.** -/
theorem refused_unchanged (t : LockTab) (call : LockCall) (h : (call.run t).1 = false) : (call.run t).2 = t := by
  cases call with
  | unlock qid owner start length => exact styxUnlock_refused h
  | lock qid owner start length type =>
    rw [LockCall.run] at h ⊢
    obtain hr | ⟨-, hr⟩ | ⟨-, -, i, -, hr⟩ := styxLock_cases t qid owner start length type
    · rw [hr]
    · rw [hr] at h ⊢
      exact styxUnlock_refused h
    · rw [hr] at h
      exact Bool.noConfusion h

/-! ## Exclusion -/

/-- The invariant. -/
structure LocksKept (t : LockTab) : Prop where
  fits : ∀ i < lockMax, (t i).inUse = true → (t i).Fits
  exclusive : Exclusive t

theorem LocksKept.unlock (h : LocksKept t) (qid : UInt64) (owner : Int) (start length : UInt64) :
    LocksKept (styxUnlock t qid owner start length).2 := by
  have hslot : ∀ i, ((styxUnlock t qid owner start length).2 i).inUse = true →
      (styxUnlock t qid owner start length).2 i = t i := by
    intro i huse
    rcases @styxUnlock_slot t start length qid owner i with heq | heq
    · exact heq
    · rw [heq] at huse
      exact Bool.noConfusion huse
  refine ⟨fun i hi huse => ?_, fun i hi j hj hui huj => ?_⟩
  · have heq := hslot i huse
    rw [heq] at huse ⊢
    exact h.fits i hi huse
  · have hi' := hslot i hui
    have hj' := hslot j huj
    rw [hi'] at hui ⊢
    rw [hj'] at huj ⊢
    exact h.exclusive i hi j hj hui huj

/-- **A lock that nothing is in the way of** shares its bytes with readers only, and then only if it is a
reader's. -/
theorem shared_of_clear (hl : l.Fits) (hn : IsLockType type ∧ FitsRange start length)
    (hclear : l.conflicts qid owner start length type = false) (huse : l.inUse = true)
    (hqid : l.qid = qid) (howner : l.owner ≠ owner) {x : Nat} (hx : x ∈ l.bytes)
    (hx' : x ∈ (Lock.mk qid owner start length type true).bytes) : l.type = rdlck ∧ type = rdlck := by
  have hov := @overlaps_of_mem ⟨qid, owner, start, length, type, true⟩ l hn.2 hl.2 x hx' hx
  rw [Lock.last] at hov
  simp only [Lock.conflicts, huse, hqid, hov, beq_self_eq_true, Bool.true_and, bne_iff_ne.2 howner,
    Bool.or_eq_false_iff, beq_eq_false_iff_ne] at hclear
  exact ⟨hl.1.resolve_right hclear.1, hn.1.resolve_right hclear.2⟩

/-- **A lock is granted.** -/
theorem LocksKept.grant (h : LocksKept t) (hn : IsLockType type ∧ FitsRange start length)
    (hclear : ∀ k < lockMax, (t k).conflicts qid owner start length type = false) (i : Nat) :
    LocksKept (update t i ⟨qid, owner, start, length, type, true⟩) := by
  -- the new lock and one of another owner
  have hnew : ∀ k < lockMax, (t k).inUse = true → (t k).qid = qid → (t k).owner ≠ owner →
      ∀ x ∈ (t k).bytes, x ∈ (Lock.mk qid owner start length type true).bytes →
        (t k).type = rdlck ∧ type = rdlck := fun k hk huse hqid howner x hx hx' =>
    shared_of_clear (h.fits k hk huse) hn (hclear k hk) huse hqid howner hx hx'
  refine ⟨fun k hk huse => ?_, fun k hk j hj huk huj hqid howner x hxk hxj => ?_⟩
  · rcases eq_or_ne k i with rfl | hki
    · rw [update_self]
      exact hn
    · rw [update_of_ne hki] at huse ⊢
      exact h.fits k hk huse
  · rcases eq_or_ne k i with rfl | hki
    · rcases eq_or_ne j k with rfl | hjk
      · exact absurd rfl howner
      · rw [update_self] at hqid howner hxk ⊢
        rw [update_of_ne hjk] at huj hqid howner hxj ⊢
        exact (hnew j hj huj hqid.symm howner.symm x hxj hxk).symm
    · rw [update_of_ne hki] at huk hqid howner hxk ⊢
      rcases eq_or_ne j i with rfl | hji
      · rw [update_self] at hqid howner hxj ⊢
        exact hnew k hk huk hqid howner x hxk hxj
      · rw [update_of_ne hji] at huj hqid howner hxj ⊢
        exact h.exclusive k hk j hj huk huj hqid howner x hxk hxj

/-- **A call keeps the invariant.** -/
theorem LocksKept.step (h : LocksKept t) (call : LockCall) (hfits : call.Fits) : LocksKept (call.run t).2 := by
  cases call with
  | unlock qid owner start length => exact h.unlock qid owner start length
  | lock qid owner start length type =>
    rw [LockCall.run]
    obtain hr | ⟨-, hr⟩ | ⟨htype, hclear, i, -, hr⟩ := styxLock_cases t qid owner start length type
    · rw [hr]
      exact h
    · rw [hr]
      exact h.unlock qid owner start length
    · rw [hr]
      exact h.grant (hfits.resolve_left htype) hclear i

/-- **No two owners ever share a byte**, unless both are readers, if no call asks for bytes beyond the
last one; and no refused call changes the table. -/
theorem exclusive_of_fits {calls : List LockCall}
    (h : Run (guarded (fun _ call => call.Fits) lockStep) styxLocksInit calls t) :
    Exclusive t ∧ ∀ call : LockCall, (call.run t).1 = false → (call.run t).2 = t := by
  refine ⟨(h.invariant LocksKept (fun s call s' hg hs => ?_) ?_).exclusive, refused_unchanged t⟩
  · rw [← hg.2]
    exact hs.step call hg.1
  · exact ⟨fun _ _ huse => Bool.noConfusion huse, fun _ _ _ _ huse => Bool.noConfusion huse⟩

/-- A reader and a writer, of different bytes. -/
theorem exclusive_of_fits_two : Exclusive (LockCall.run (LockCall.run styxLocksInit (.lock 7 100 0 100 rdlck)).2
      (.lock 7 200 100 0 wrlck)).2 :=
  have hr : (LockCall.lock 7 100 0 100 rdlck).Fits := Or.inr ⟨Or.inl rfl, by decide⟩
  have hw : (LockCall.lock 7 200 100 0 wrlck).Fits := Or.inr ⟨Or.inr rfl, by decide⟩
  (exclusive_of_fits (.cons ⟨hr, rfl⟩ (.cons ⟨hw, rfl⟩ (.nil _)))).1

/-- **Two owners write to the last byte of a file**: each has asked for two bytes from there on. -/
theorem wrapped_shared :
    ¬∀ (calls : List LockCall) (t : LockTab), Run lockStep styxLocksInit calls t → Exclusive t := by
  intro h
  have hrun := h [.lock 7 100 (0 - 1) 2 wrlck, .lock 7 200 (0 - 1) 2 wrlck] _
    (.cons rfl (.cons rfl (.nil _)))
  have hbyte : 2 ^ 64 - 1 ∈ (Lock.mk 7 100 (0 - 1) 2 wrlck true).bytes ∧
      2 ^ 64 - 1 ∈ (Lock.mk 7 200 (0 - 1) 2 wrlck true).bytes := by
    constructor <;> exact ⟨by decide, by decide, fun _ => by decide⟩
  exact absurd (hrun 0 (by decide) 1 (by decide) (by decide) (by decide) (by decide) (by decide)
    (2 ^ 64 - 1) hbyte.1 hbyte.2).1 (by decide)

end WuBuOS.Styx
