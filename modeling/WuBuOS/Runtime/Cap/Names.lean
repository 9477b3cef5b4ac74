import WuBuOS.Runtime.Cap.Handle
import WuBuOS.Runtime.Cap.World

/-!
# What tokens and handles stand for

A token is given out when an object is made, and a handle for an object that is there.  Every object is made
with generation 1, so a token does not tell an object from one that was in its slot before, and there is
nothing else that would: once a slot is used again, the tokens and the handles of the object that was
destroyed stand for the new one (`recycled_slot`).  As long as no slot is, what is in a slot is the only
object there ever was in it, and they stand for nothing else (`named_of_fresh`).

For handles there is the generation of the entry, too, which is back at the first one after an entry has been
closed 2 ^ 32 times.
-/

namespace WuBuOS.Cap

open Runs
open Function (update update_of_ne update_self)

variable {r r' : Registry} {i slot : Nat} {tok : Token} {call : CapCall}

/-! ## Sessions -/

/-- The objects, the handle tables that have been made, and the handles that have been given out: in which
table, and for which object. -/
structure Session where
  world : World
  tables : Nat → Option HandleTable
  held : List (Nat × Token × Nat)

/-- Nothing has been made. -/
def Session.start (mem : Nat → Bool) : Session := ⟨.empty mem, fun _ => none, []⟩

/-- A call of the registry, or on a handle table. -/
inductive SysCall
  | cap (call : CapCall)
  | tableCreate (t : Nat)
  | insert (t objectIdx : Nat) (flags : UInt8)
  | close (t : Nat) (tok : Token)

/-- The registry has changed, but no object has been made. -/
def Session.withReg (s : Session) (reg : Registry) : Session := { s with world := { s.world with reg := reg } }

/-- A table has changed. -/
def Session.withTable (s : Session) (t : Nat) (table : Option HandleTable) : Session :=
  { s with tables := update s.tables t table }

/-- What a call does. -/
def Session.next (s : Session) : SysCall → Session
  | .cap call => { s with world := s.world.next call }
  | .tableCreate t =>
    if (s.tables t).isSome then s
    else
      let res := wubuCapHandleTableCreate s.world.reg
      (s.withReg res.2).withTable t res.1
  | .insert t objectIdx flags =>
    match s.tables t with
    | none => s
    | some table =>
      let res := wubuCapHandleInsert table objectIdx flags s.world.reg
      let s' := (s.withReg res.2).withTable t (some res.1.2)
      if res.1.1.isNull ∨ (s.world.reg.ptrs objectIdx).isNone then s'
      else { s' with held := (t, res.1.1, s.world.name objectIdx) :: s.held }
  | .close t tok =>
    match s.tables t with
    | none => s
    | some table => s.withTable t (some (wubuCapHandleClose table tok).2)

/-- A call leads from one session to the next. -/
def sysStep (s : Session) (call : SysCall) (s' : Session) : Prop := s.next call = s'

/-- **Tokens and handles stand for the objects that they were given out for**, if for anything. -/
def Session.Named (s : Session) : Prop :=
  (∀ x ∈ s.world.issued, ∀ pid required i, wubuCapResolve pid x.1 required s.world.reg = some i →
    s.world.name i = x.2) ∧
  ∀ t tok n, (t, tok, n) ∈ s.held → ∀ table, s.tables t = some table → ∀ pid required i,
    wubuCapHandleResolve table pid tok required s.world.reg = some i → s.world.name i = n

/-! ## The condition -/

/-- There has been an object in the slot. -/
def World.Used (w : World) (i : Nat) : Prop := ∃ x ∈ w.issued, x.1.idx = i

/-- An object is made, and the first free slot is one that has been used. -/
def World.Recycles (w : World) (call : CapCall) : Prop :=
  (call.run w.reg).1.isSome ∧ ∃ slot, capFindFreeSlot w.reg = some slot ∧ w.Used slot

/-- No slot is used again, and no generation is. -/
def SysCall.Fresh (s : Session) : SysCall → Prop
  | .cap call => ¬s.world.Recycles call
  | .close t tok => ∀ table, s.tables t = some table → ¬table.WrapsAt tok
  | _ => True

instance (w : World) (call : CapCall) : Decidable (w.Recycles call) :=
  decidable_of_iff ((call.run w.reg).1.isSome ∧
      (capFindFreeSlot w.reg).any fun slot => w.issued.any fun x => x.1.idx == slot) <| by
    refine and_congr_right fun _ => ?_
    simp [Option.any_eq_true, World.Used]

instance (t : HandleTable) (tok : Token) : Decidable (t.WrapsAt tok) := inferInstanceAs (Decidable (_ ∧ _ ∧ _))

instance (s : Session) : ∀ call : SysCall, Decidable (call.Fresh s)
  | .cap call => inferInstanceAs (Decidable ¬s.world.Recycles call)
  | .close t tok => decidable_of_iff (∀ table ∈ s.tables t, ¬table.WrapsAt tok) Iff.rfl
  | .tableCreate _ => isTrue trivial
  | .insert .. => isTrue trivial

theorem findFree_congr {n : Nat} (hi : i ≠ 0) (h : ∀ j ≠ 0, r'.ptrs j = r.ptrs j) :
    findFree r' n i = findFree r n i := by
  induction n generalizing i with
  | zero => rfl
  | succ n ih => rw [findFree, findFree, h i hi, ih (Nat.succ_ne_zero i)]

/-- **An object is made in the first free slot.** -/
theorem CapCall.run_slot (h : call.run r = (some (slot, tok), r')) : capFindFreeSlot r = some slot := by
  have hcreate : ∀ {kind rights audience flags kindData ownerPid parentIdx},
      (wubuCapCreate kind rights audience flags kindData ownerPid parentIdx r).1.toOption =
        some (slot, tok) → capFindFreeSlot r = some slot := by
    intro kind rights audience flags kindData ownerPid parentIdx h
    have hsame : capFindFreeSlot (malloc (wubuCapInit r)).2 = capFindFreeSlot r :=
      findFree_congr (Nat.succ_ne_zero 0) fun j hj => wubuCapInit_ptrs hj
    rw [← hsame]
    rw [wubuCapCreate] at h
    split at h
    · cases h
    rename_i r1 hm
    rw [hm]
    split at h
    · cases h
    rename_i slot' hslot
    rw [hslot]
    exact congrArg (Option.map Prod.fst) h
  have hfst := congrArg Prod.fst h
  cases call with
  | create => exact hcreate hfst
  | derive parent callerPid rightsSubset audienceSubset flagsSubset =>
    rw [run] at hfst
    obtain ⟨e, hd⟩ | ⟨p, -, -, -, -, -, -, -, -, -, hd⟩ :=
      wubuCapDerive_cases parent callerPid rightsSubset audienceSubset flagsSubset r
    · rw [hd] at hfst
      cases hfst
    · rw [hd] at hfst
      exact hcreate hfst
  | revoke => cases hfst
  | destroy => cases hfst

/-! ## The invariant -/

variable {s : Session} {w : World}

/-- The slot was only ever used for the object, or is slot 0, which is never used. -/
def World.Kept (w : World) (n i : Nat) : Prop :=
  i < objectCapacity ∧ (i = 0 ∨ w.Used i) ∧ w.name i = n

/-- **What holds in a session in which no slot has been used again.** -/
structure Session.Ok (s : Session) : Prop where
  sound : s.world.Sound
  used : ∀ i o, i ≠ 0 → s.world.reg.view Object.essence i = some o → s.world.Used i
  token : ∀ x ∈ s.world.issued, s.world.name x.1.idx = x.2
  table : ∀ t table, s.tables t = some table → table.Ok
  held : ∀ t tok n, (t, tok, n) ∈ s.held → ∃ table, s.tables t = some table ∧
    table.Keeps tok (s.world.Kept n)

theorem Session.ok_start (mem : Nat → Bool) : (Session.start mem).Ok :=
  ⟨World.sound_empty mem, nofun, nofun, nofun, nofun⟩

theorem Session.Ok.named (h : s.Ok) : s.Named := by
  refine ⟨fun x hx pid required i hres => ?_, fun t tok n hin table htable pid required i hres => ?_⟩
  · rw [← (wubuCapResolve_iff.1 hres).1]
    exact h.token x hx
  · obtain ⟨table', htable', hk⟩ := h.held t tok n hin
    obtain rfl : table = table' := Option.some.inj (htable.symm.trans htable')
    obtain ⟨j, ⟨hlt, -, hname⟩, rfl⟩ := wubuCapHandleResolve_spec hk hres
    rw [Nat.mod_eq_of_lt (hlt.trans (by decide))]
    exact hname

theorem World.Kept.next {n : Nat} (h : w.Kept n i) (hfresh : ¬w.Recycles call) : (w.next call).Kept n i := by
  obtain ⟨hlt, hused, hname⟩ := h
  rw [World.next]
  split
  · exact ⟨hlt, hused, hname⟩
  · rename_i slot tok r' hr
    have hne : i ≠ slot := by
      rintro rfl
      rcases hused with rfl | hused
      · exact (CapCall.run_some hr).1 rfl
      · exact hfresh ⟨by rw [hr]; rfl, i, CapCall.run_slot hr, hused⟩
    refine ⟨hlt, hused.imp_right fun hex => hex.imp fun x hx => ⟨List.mem_cons_of_mem _ hx.1, hx.2⟩, ?_⟩
    exact (update_of_ne hne ..).trans hname

theorem Session.Ok.cap (h : s.Ok) (hfresh : ¬s.world.Recycles call) : (s.next (.cap call)).Ok := by
  have hheld : ∀ t tok n, (t, tok, n) ∈ s.held → ∃ table, s.tables t = some table ∧
      table.Keeps tok ((s.world.next call).Kept n) := by
    intro t tok n hin
    obtain ⟨table, htable, hk⟩ := h.held t tok n hin
    exact ⟨table, htable, hk.mono fun i hi => hi.next hfresh⟩
  have hsound := h.sound.step call
  refine ⟨hsound, fun i o hi ho => ?_, fun x hx => ?_, h.table, hheld⟩
  · rw [Session.next, World.next] at ho ⊢
    split at ho
    · rename_i r' hr
      obtain ho | ⟨rfl, -⟩ := CapCall.run_none hr ho
      · exact h.used i o hi ho
      · exact absurd rfl hi
    · rename_i slot tok r' hr
      obtain ⟨-, -, htok, hold⟩ := CapCall.run_some hr
      rcases eq_or_ne i slot with rfl | hne
      · exact ⟨_, List.mem_cons_self, htok⟩
      · obtain ho | ⟨rfl, -⟩ := hold i o hne ho
        · obtain ⟨x, hx, hxi⟩ := h.used i o hi ho
          exact ⟨x, List.mem_cons_of_mem _ hx, hxi⟩
        · exact absurd rfl hi
  · rw [Session.next] at hx ⊢
    rw [World.next] at hx ⊢
    split at hx
    · exact h.token x hx
    · rename_i slot tok r' hr
      rcases List.mem_cons.1 hx with rfl | hold
      · dsimp only
        rw [(CapCall.run_some hr).2.2.1, update_self]
      · refine (update_of_ne ?_ ..).trans (h.token x hold)
        rintro rfl
        exact hfresh ⟨by rw [hr]; rfl, _, CapCall.run_slot hr, x, hold, rfl⟩

/-- A session in which the objects are the same, and every token that is kept still is. -/
theorem Session.Ok.tables (h : s.Ok) {reg : Registry} (hreg : reg.ptrs = s.world.reg.ptrs)
    {tables : Nat → Option HandleTable} {held : List (Nat × Token × Nat)}
    (htable : ∀ t table, tables t = some table → table.Ok)
    (hheld : ∀ t tok n, (t, tok, n) ∈ held → ∃ table, tables t = some table ∧ table.Keeps tok (s.world.Kept n)) :
    Session.Ok { world := { s.world with reg := reg }, tables := tables, held := held } := by
  have hview : reg.view Object.essence = s.world.reg.view Object.essence := by
    funext i
    rw [Registry.view, hreg, Registry.view]
  refine ⟨⟨?_, ?_, ?_, h.sound.parent_lt⟩, ?_, h.token, htable, hheld⟩
  · exact hview ▸ h.sound.bound
  · exact hview ▸ h.sound.immortal
  · exact hview ▸ h.sound.name_lt
  · exact hview ▸ h.used

theorem Session.Ok.step (h : s.Ok) {call : SysCall} (hfresh : call.Fresh s) : (s.next call).Ok := by
  have hother : ∀ {t : Nat} {table table' : HandleTable}, s.tables t = some table → table'.Ok →
      (∀ tok n, table.Keeps tok (s.world.Kept n) → table'.Keeps tok (s.world.Kept n)) →
      (∀ t' x, update s.tables t (some table') t' = some x → x.Ok) ∧
        ∀ t' tok n, (t', tok, n) ∈ s.held → ∃ x, update s.tables t (some table') t' = some x ∧
          x.Keeps tok (s.world.Kept n) := by
    intro t table table' htable hok hkeeps
    refine ⟨fun t' x hx => ?_, fun t' tok n hin => ?_⟩
    · rcases eq_or_ne t' t with rfl | hne
      · rw [update_self] at hx
        exact Option.some.inj hx ▸ hok
      · rw [update_of_ne hne] at hx
        exact h.table t' x hx
    · obtain ⟨x, hx, hk⟩ := h.held t' tok n hin
      rcases eq_or_ne t' t with rfl | hne
      · obtain rfl : table = x := Option.some.inj (htable.symm.trans hx)
        exact ⟨table', update_self .., hkeeps tok n hk⟩
      · exact ⟨x, (update_of_ne hne ..).trans hx, hk⟩
  cases call with
  | cap call => exact h.cap hfresh
  | tableCreate t =>
    rw [Session.next]
    split
    · exact h
    rename_i hnone
    rw [Bool.not_eq_true, Option.isSome_eq_false_iff, Option.isNone_iff_eq_none] at hnone
    refine h.tables wubuCapHandleTableCreate_ptrs (fun t' x hx => ?_) fun t' tok n hin => ?_
    · dsimp only [Session.withReg] at hx
      rcases eq_or_ne t' t with rfl | hne
      · rw [update_self] at hx
        exact wubuCapHandleTableCreate_ok (Prod.ext hx rfl)
      · rw [update_of_ne hne] at hx
        exact h.table t' x hx
    · obtain ⟨x, hx, hk⟩ := h.held t' tok n hin
      refine ⟨x, (update_of_ne ?_ ..).trans hx, hk⟩
      rintro rfl
      cases hnone.symm.trans hx
  | insert t objectIdx flags =>
    rw [Session.next]
    split
    · exact h
    rename_i table htable
    have hok := h.table t table htable
    obtain ⟨hok', hnew, hold⟩ := @wubuCapHandleInsert_ok table objectIdx s.world.reg flags hok
    obtain ⟨htables, hheld⟩ := hother htable hok' fun tok n => hold tok (s.world.Kept n)
    dsimp only
    split
    · exact h.tables wubuCapHandleInsert_ptrs htables hheld
    · rename_i hcond
      rw [not_or, Bool.not_eq_true, Option.isNone_iff_eq_none, ← Ne, Option.ne_none_iff_exists'] at hcond
      obtain ⟨hnull, o, ho⟩ := hcond
      refine h.tables wubuCapHandleInsert_ptrs htables fun t' tok n hin => ?_
      rcases List.mem_cons.1 hin with heq | hin
      · cases heq
        refine ⟨_, update_self .., hnew hnull (s.world.Kept _) ⟨?_, ?_, rfl⟩⟩
        · exact h.sound.bound objectIdx _ (Registry.view_some ho _)
        · exact or_iff_not_imp_left.2 fun h0 => h.used objectIdx _ h0 (Registry.view_some ho _)
      · exact hheld t' tok n hin
  | close t tok =>
    rw [Session.next]
    split
    · exact h
    rename_i table htable
    obtain ⟨htables, hheld⟩ := hother htable (wubuCapHandleClose_ok (h.table t table htable))
      fun tok' n => wubuCapHandleClose_keeps (hfresh table htable)
    exact h.tables rfl htables hheld

/-- **Tokens and handles stand for the objects that they were given out for**, as long as no slot is used
again. -/
theorem named_of_fresh {mem : Nat → Bool} {calls : List SysCall}
    (h : Run (guarded (fun s call => call.Fresh s) sysStep) (Session.start mem) calls s) : s.Named := by
  refine (h.invariant Session.Ok (fun s call s' hg hs => ?_) (Session.ok_start mem)).named
  obtain ⟨hfresh, hstep⟩ := hg
  rw [← (show s.next call = s' from hstep)]
  exact hs.step hfresh

/-- An object with a handle, and one derived from it; the handle is closed, and the next one, for the
derived object, has its entry; then the first object is destroyed. -/
def handleReused : List SysCall :=
  [.cap (.create 1 0x0B (some [100]) 0 0 100 idxNone), .tableCreate 0, .insert 0 1 0,
    .cap (.derive ⟨1, 1, 0⟩ 100 0x01 none 0), .close 0 ⟨1, 1, 0⟩, .insert 0 2 0, .cap (.destroy 1)]

theorem named_of_fresh_handleReused : (handleReused.foldl Session.next (.start fun _ => true)).Named :=
  named_of_fresh (@Each.run _ _ _ _ _ handleReused (by decide))

/-- An object with a handle, which is destroyed, and another object. -/
def slotReused : List SysCall :=
  [.cap (.create 1 0x0B (some [100]) 0 0 100 idxNone), .tableCreate 0, .insert 0 1 0, .cap (.destroy 1),
    .cap (.create 1 0x0B (some [100]) 0 0 100 idxNone)]

/-- **The slot of an object that has been destroyed** is used again, and the token and the handle of that
object now stand for the new one. -/
theorem recycled_slot : let s := slotReused.foldl Session.next (.start fun _ => true)
    ((⟨1, 1, 0⟩, 0) ∈ s.world.issued ∧
      wubuCapResolve 100 ⟨1, 1, 0⟩ rightRead s.world.reg = some 1 ∧ s.world.name 1 = 1) ∧
      ((0, ⟨1, 1, 0⟩, 0) ∈ s.held ∧
        (s.tables 0).bind (wubuCapHandleResolve · 100 ⟨1, 1, 0⟩ rightRead s.world.reg) = some 1) := by
  decide

end WuBuOS.Cap
