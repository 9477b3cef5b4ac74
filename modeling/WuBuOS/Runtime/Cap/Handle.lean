import WuBuOS.Lib.Linked
import WuBuOS.Runtime.Cap.Effects

/-!
# Handles

`runtime/wubu_cap/wubu_cap_handle.c`.  A process does not see the slots of the registry, but has a table of
its own: a handle is a token for an entry of it, which holds the slot of an object, and a generation that
is counted up when the handle is closed.  Entries that are not in use are in a list; when it is empty, the
table is moved to one twice as long.

`HandleTable.Keeps` says of a token that the entry it names still holds what it was given out for, or that
its generation has gone on.  The generation has 32 bits, and a generation that has been counted up
2 ^ 32 times is the first one again, so closing keeps that only until then (`close_keeps`).
-/

namespace WuBuOS.Cap

open Linked
open Function (update update_of_ne update_self)

/-! ## The table -/

/-- `WUBU_CAP_HANDLE_INITIAL`. -/
def handleInitial : Nat := 16

/-- `WUBU_CAP_HANDLE_MAX`. -/
def handleMax : Nat := 1024

/-- `WUBU_CAP_HANDLE_NONE`. -/
def handleNone : Nat := 0xFFFFFFFF

/-- `struct wubu_cap_hentry`. -/
structure HEntry where
  objectIdx : Nat
  localGen : UInt32
  tokenFlags : UInt8
  nextFree : Nat

/-- `struct wubu_cap_handle_table`. -/
structure HandleTable where
  entries : Nat → HEntry
  capacity : Nat
  count : Nat
  nextFree : Nat

/-- `rebuild_free`, with so many entries still to do; what becomes of the head is returned. -/
def rebuildFree (e : Nat → HEntry) (start : Nat) : Nat → Nat → (Nat → HEntry) × Nat
  | 0, head => (e, head)
  | n + 1, head => rebuildFree (update e (start + n) ⟨idxNone, 1, 0, head⟩) start n (start + n)

/-- `wubu_cap_handle_table_create`.  Of the first entry, the generation is not set; it is never used. -/
def wubuCapHandleTableCreate (r : Registry) : Option HandleTable × Registry :=
  match malloc r with
  | (false, r) => (none, r)
  | (true, r) =>
    match malloc r with
    | (false, r) => (none, r)
    | (true, r) =>
      let f := rebuildFree (fun _ => ⟨idxNone, 0, 0, handleNone⟩) 1 (handleInitial - 1) handleNone
      (some ⟨f.1, handleInitial, 0, f.2⟩, r)

def grow (t : HandleTable) (r : Registry) : Option HandleTable × Registry :=
  if handleMax ≤ t.capacity then (none, r)
  else
    let newCap := min (t.capacity * 2) handleMax
    match malloc r with
    | (false, r) => (none, r)
    | (true, r) =>
      let f := rebuildFree t.entries t.capacity (newCap - t.capacity) t.nextFree
      (some { t with entries := f.1, capacity := newCap, nextFree := f.2 }, r)

/-- What `wubu_cap_handle_insert` does once there is an entry in the list. -/
def HandleTable.take (t : HandleTable) (objectIdx : Nat) (tokenFlags : UInt8) : Token × HandleTable :=
  let e := t.entries t.nextFree
  (tokenPack e.localGen t.nextFree tokenFlags,
    { t with
      entries := update t.entries t.nextFree ⟨objectIdx, e.localGen, tokenFlags, handleNone⟩
      count := t.count + 1
      nextFree := e.nextFree })

def wubuCapHandleInsert (t : HandleTable) (objectIdx : Nat) (tokenFlags : UInt8) (r : Registry) :
    (Token × HandleTable) × Registry :=
  if objectIdx = idxNone then ((tokenNull, t), r)
  else if t.nextFree = handleNone then
    match grow t r with
    | (none, r) => ((tokenNull, t), r)
    | (some t, r) => (t.take objectIdx tokenFlags, r)
  else (t.take objectIdx tokenFlags, r)

def wubuCapHandleResolve (t : HandleTable) (callerPid : Int) (tok : Token) (required : UInt64)
    (r : Registry) : Option Nat :=
  if t.capacity ≤ tok.idx then none
  else
    let e := t.entries tok.idx
    if e.objectIdx = idxNone then none
    else if e.localGen ≠ tok.gen then none
    else
      let gen := match r.ptrs e.objectIdx with
        | some o => o.generation
        | none => 0
      wubuCapResolve callerPid (tokenPack gen e.objectIdx e.tokenFlags) required r

def wubuCapHandleClose (t : HandleTable) (tok : Token) : Except CapError Unit × HandleTable :=
  if t.capacity ≤ tok.idx then (.error .einval, t)
  else
    let e := t.entries tok.idx
    if e.objectIdx = idxNone then (.error .einval, t)
    else
      (.ok (), { t with
        entries := update t.entries tok.idx ⟨idxNone, e.localGen + 1, 0, t.nextFree⟩
        count := t.count - 1
        nextFree := tok.idx })

/-! ## The list of free entries -/

variable {e : Nat → HEntry} {t t' : HandleTable} {start n head cap i idx : Nat} {tok : Token}
  {P Q Q' : Nat → Prop} {r r' : Registry} {flags : UInt8} {pid : Int} {required : UInt64}

/-- From the head there is a list of entries of some kind, which are not in use. -/
def FreeList (e : Nat → HEntry) (head : Nat) (Q : Nat → Prop) : Prop :=
  ∃ l, IsList (fun i => (e i).nextFree) handleNone head l ∧ ∀ i ∈ l, Q i ∧ (e i).objectIdx = idxNone

theorem FreeList.mono (h : FreeList e head Q) (hQ : ∀ i, Q i → Q' i) : FreeList e head Q' := by
  obtain ⟨l, hl, hfree⟩ := h
  exact ⟨l, hl, fun i hi => ⟨hQ i (hfree i hi).1, (hfree i hi).2⟩⟩

/-- An entry that is not in the list is put on it. -/
theorem FreeList.push (h : FreeList e head Q) (hnot : Q i → (e i).objectIdx ≠ idxNone)
    (hi : i ≠ handleNone) (g : UInt32) (f : UInt8) :
    FreeList (update e i ⟨idxNone, g, f, head⟩) i fun j => j = i ∨ Q j := by
  obtain ⟨l, hl, hfree⟩ := h
  have hmem : i ∉ l := fun hin => hnot (hfree i hin).1 (hfree i hin).2
  have hother : ∀ j ∈ l, update e i ⟨idxNone, g, f, head⟩ j = e j := by
    intro j hj
    refine update_of_ne ?_ ..
    rintro rfl
    exact hmem hj
  refine ⟨i :: l, hl.push hi ?_ fun j hj => ?_, fun j hj => ?_⟩
  · rw [update_self]
  · rw [hother j hj]
  · rcases List.mem_cons.1 hj with rfl | hj
    · rw [update_self]
      exact ⟨Or.inl rfl, rfl⟩
    · rw [hother j hj]
      exact ⟨Or.inr (hfree j hj).1, (hfree j hj).2⟩

theorem rebuildFree_other (hi : i < start) : (rebuildFree e start n head).1 i = e i := by
  induction n generalizing e head with
  | zero => rfl
  | succ n ih =>
    rw [rebuildFree, ih]
    exact update_of_ne (by omega) ..

theorem rebuildFree_head (hn : n ≠ 0) : (rebuildFree e start n head).2 = start := by
  induction n generalizing e head with
  | zero => exact absurd rfl hn
  | succ n ih =>
    rw [rebuildFree]
    rcases eq_or_ne n 0 with rfl | hn
    · rfl
    · exact ih hn

/-- **`rebuild_free` puts the new entries on the list**, whatever is said of a list that a push keeps. -/
theorem rebuildFree_push {C : (Nat → HEntry) → Nat → (Nat → Prop) → Prop}
    (hpush : ∀ {e head Q i}, C e head Q → (Q i → (e i).objectIdx ≠ idxNone) → i ≠ handleNone → ∀ g f,
      C (update e i ⟨idxNone, g, f, head⟩) i fun j => j = i ∨ Q j)
    (h : C e head fun j => j ≠ 0 ∧ (j < start ∨ start + n ≤ j) ∧ j < cap) (hstart : 0 < start)
    (hn : start + n ≤ cap) (hcap : cap ≤ handleMax) :
    C (rebuildFree e start n head).1 (rebuildFree e start n head).2 fun j => j ≠ 0 ∧ j < cap := by
  induction n generalizing e head with
  | zero => exact cast (congrArg (C e head) (funext fun j => propext (by omega))) h
  | succ n ih =>
    have hne : start + n ≠ handleNone := by
      have : handleMax < handleNone := by decide
      omega
    have hnext := hpush h (by omega) hne 1 0
    exact ih (cast (congrArg (C _ _) (funext fun j => propext (by omega))) hnext) (by omega)

/-! ## What holds of a table -/

/-- **What holds of a handle table.** -/
structure HandleTable.Ok (t : HandleTable) : Prop where
  pos : 0 < t.capacity
  bound : t.capacity ≤ handleMax
  zero : (t.entries 0).objectIdx = idxNone
  free : FreeList t.entries t.nextFree fun i => i ≠ 0 ∧ i < t.capacity

/-- How often a generation has been counted up, from 1 on. -/
def age (g : UInt32) : Nat := (g - 1).toNat

theorem age_succ {g : UInt32} (h : g ≠ 0) : age (g + 1) = age g + 1 := by
  have h1 : 1 ≤ g.toNat := Nat.one_le_iff_ne_zero.2 fun h' => h (UInt32.toNat_inj.1 h')
  have hle : (1 : UInt32) ≤ g := UInt32.le_iff_toNat_le.2 h1
  rw [age, age, UInt32.add_sub_cancel, UInt32.toNat_sub_of_le g 1 hle]
  exact (Nat.sub_add_cancel h1).symm

/-- **A token that has been given out**: as long as its generation is that of its entry, the entry is in
use, and for what it was given out. -/
structure HandleTable.Keeps (t : HandleTable) (tok : Token) (P : Nat → Prop) : Prop where
  bound : tok.idx < t.capacity
  age_le : age tok.gen ≤ age (t.entries tok.idx).localGen
  holds : tok.gen = (t.entries tok.idx).localGen →
    (t.entries tok.idx).objectIdx ≠ idxNone ∧ P (t.entries tok.idx).objectIdx

theorem HandleTable.Keeps.mono {P' : Nat → Prop} (h : t.Keeps tok P) (hP : ∀ i, P i → P' i) : t.Keeps tok P' :=
  ⟨h.bound, h.age_le, fun hg => ⟨(h.holds hg).1, hP _ (h.holds hg).2⟩⟩

theorem wubuCapHandleTableCreate_ok (h : wubuCapHandleTableCreate r = (some t, r')) : t.Ok := by
  rw [wubuCapHandleTableCreate] at h
  split at h
  · cases h
  split at h
  · cases h
  cases congrArg Prod.fst h
  refine ⟨by decide, by decide, ?_, ?_⟩
  · dsimp only
    rw [rebuildFree_other Nat.one_pos]
  · refine rebuildFree_push FreeList.push ⟨[], rfl, fun _ hi => absurd hi List.not_mem_nil⟩ ?_ ?_ ?_ <;> decide

theorem grow_ok (h : grow t r = (some t', r')) (ht : t.Ok) :
    t'.Ok ∧ t'.nextFree ≠ handleNone ∧ t.capacity ≤ t'.capacity ∧ ∀ i < t.capacity, t'.entries i = t.entries i := by
  rw [grow] at h
  split at h
  · cases h
  rename_i hlt
  split at h
  · cases h
  cases congrArg Prod.fst h
  have hpos := ht.pos
  have hgrow : t.capacity < min (t.capacity * 2) handleMax := by omega
  refine ⟨⟨hpos.trans hgrow, Nat.min_le_right ..,
    (congrArg HEntry.objectIdx (rebuildFree_other hpos)).trans ht.zero, ?_⟩, ?_, Nat.le_of_lt hgrow,
    fun i hi => rebuildFree_other hi⟩
  · dsimp only
    refine rebuildFree_push FreeList.push (ht.free.mono fun j hj => ?_) hpos (by omega) (Nat.min_le_right ..)
    exact ⟨hj.1, Or.inl hj.2, hj.2.trans hgrow⟩
  · dsimp only
    rw [rebuildFree_head (by omega)]
    have : handleMax < handleNone := by decide
    omega

/-- **An entry is taken from the list.** -/
theorem take_ok (ht : t.Ok) (hfree : t.nextFree ≠ handleNone) (hidx : idx ≠ idxNone) :
    (t.take idx flags).2.Ok ∧ (t.take idx flags).1.isNull = false ∧
      (∀ P : Nat → Prop, P idx → (t.take idx flags).2.Keeps (t.take idx flags).1 P) ∧
      ∀ tok P, t.Keeps tok P → (t.take idx flags).2.Keeps tok P := by
  obtain ⟨l, hl, hmem⟩ := ht.free
  cases l with
  | nil => exact absurd hl hfree
  | cons a l =>
    obtain rfl : t.nextFree = a := hl.1
    have hnd := (List.nodup_cons.1 hl.nodup).1
    obtain ⟨⟨h0, hlt⟩, hnone⟩ := hmem _ List.mem_cons_self
    have hslot : (t.take idx flags).1.idx = t.nextFree :=
      Nat.mod_eq_of_lt ((hlt.trans_le ht.bound).trans (by decide))
    refine ⟨⟨ht.pos, ht.bound, ?_, l, hl.2.2.congr fun b hb => ?_, fun b hb => ?_⟩, ?_, fun P hP => ?_, fun tok P hk => ?_⟩
    · exact (congrArg HEntry.objectIdx (update_of_ne h0.symm ..)).trans ht.zero
    · rw [HandleTable.take]
      dsimp only
      rw [update_of_ne]
      rintro rfl
      exact hnd hb
    · rw [HandleTable.take]
      dsimp only
      rw [update_of_ne]
      · exact hmem b (List.mem_cons_of_mem _ hb)
      · rintro rfl
        exact hnd hb
    · rw [Token.isNull, hslot]
      simpa using h0
    · refine ⟨hslot ▸ hlt, ?_, fun _ => ?_⟩
      · rw [hslot, HandleTable.take]
        dsimp only
        rw [update_self]
        exact Nat.le_refl _
      · rw [hslot, HandleTable.take]
        dsimp only
        rw [update_self]
        exact ⟨hidx, hP⟩
    · refine ⟨hk.bound, ?_, ?_⟩
      · rw [HandleTable.take]
        dsimp only
        rcases eq_or_ne tok.idx t.nextFree with heq | hne
        · rw [heq, update_self]
          exact heq ▸ hk.age_le
        · rw [update_of_ne hne]
          exact hk.age_le
      · rw [HandleTable.take]
        dsimp only
        rcases eq_or_ne tok.idx t.nextFree with heq | hne
        · rw [heq, update_self]
          intro hgen
          exact absurd hnone (heq ▸ (hk.holds (heq ▸ hgen)).1)
        · rw [update_of_ne hne]
          exact hk.holds

/-- **What `wubu_cap_handle_insert` does**: it keeps what holds, and the token it returns, if it is not
null, is kept. -/
theorem wubuCapHandleInsert_ok (ht : t.Ok) : (wubuCapHandleInsert t idx flags r).1.2.Ok ∧
      ((wubuCapHandleInsert t idx flags r).1.1.isNull = false → ∀ P : Nat → Prop, P idx →
        (wubuCapHandleInsert t idx flags r).1.2.Keeps (wubuCapHandleInsert t idx flags r).1.1 P) ∧
      ∀ tok P, t.Keeps tok P → (wubuCapHandleInsert t idx flags r).1.2.Keeps tok P := by
  rw [wubuCapHandleInsert]
  split
  · exact ⟨ht, nofun, fun _ _ => id⟩
  rename_i hidx
  split
  · split
    · exact ⟨ht, nofun, fun _ _ => id⟩
    · rename_i t' r' hgrow
      obtain ⟨ht', hfree, hle, hsame⟩ := grow_ok hgrow ht
      obtain ⟨hok, -, hnew, hold⟩ := @take_ok t' idx flags ht' hfree hidx
      refine ⟨hok, fun _ => hnew, fun tok P hk => hold tok P ?_⟩
      have hk' := hsame tok.idx hk.bound
      exact ⟨hk.bound.trans_le hle, hk' ▸ hk.age_le, hk' ▸ hk.holds⟩
  · rename_i hfree
    obtain ⟨hok, -, hnew, hold⟩ := @take_ok t idx flags ht hfree hidx
    exact ⟨hok, fun _ => hnew, hold⟩

/-- What the calls ask of the registry is memory. -/
theorem wubuCapHandleTableCreate_ptrs : (wubuCapHandleTableCreate r).2.ptrs = r.ptrs := by
  rw [wubuCapHandleTableCreate, malloc]
  cases r.mem 0 with
  | false => rfl
  | true =>
    dsimp only
    rw [malloc]
    cases r.mem 1 <;> rfl

theorem grow_ptrs : (grow t r).2.ptrs = r.ptrs := by
  rw [grow]
  split
  · rfl
  · rw [malloc]
    cases r.mem 0 <;> rfl

theorem wubuCapHandleInsert_ptrs : (wubuCapHandleInsert t idx flags r).2.ptrs = r.ptrs := by
  rw [wubuCapHandleInsert]
  have hgrow := @grow_ptrs t r
  split
  · rfl
  split
  · generalize grow t r = g at hgrow
    obtain ⟨_ | t', r'⟩ := g <;> exact hgrow
  · rfl

/-- A handle that is closed, and its entry's generation is counted up to the first one again. -/
def HandleTable.WrapsAt (t : HandleTable) (tok : Token) : Prop :=
  tok.idx < t.capacity ∧ (t.entries tok.idx).objectIdx ≠ idxNone ∧ (t.entries tok.idx).localGen = 0

theorem wubuCapHandleClose_ok (ht : t.Ok) : (wubuCapHandleClose t tok).2.Ok := by
  rw [wubuCapHandleClose]
  split
  · exact ht
  rename_i hlt
  dsimp only
  split
  · exact ht
  rename_i hlive
  rw [Nat.not_le] at hlt
  have h0 : tok.idx ≠ 0 := by
    intro h0
    rw [h0, ht.zero] at hlive
    exact hlive rfl
  have hne : tok.idx ≠ handleNone := by
    have : handleMax < handleNone := by decide
    have := ht.bound
    omega
  refine ⟨ht.pos, ht.bound, ?_, (ht.free.push (fun _ => hlive) hne _ _).mono ?_⟩
  · exact (congrArg HEntry.objectIdx (update_of_ne h0.symm ..)).trans ht.zero
  · rintro j (rfl | hj)
    · exact ⟨h0, hlt⟩
    · exact hj

/-- **A close keeps every token**, unless the generation is back at the first. -/
theorem wubuCapHandleClose_keeps {tok' : Token} (hwrap : ¬t.WrapsAt tok) (hk : t.Keeps tok' P) :
    (wubuCapHandleClose t tok).2.Keeps tok' P := by
  rw [wubuCapHandleClose]
  split
  · exact hk
  rename_i hlt
  dsimp only
  split
  · exact hk
  rename_i hlive
  have hgen : age ((t.entries tok.idx).localGen + 1) = age (t.entries tok.idx).localGen + 1 :=
    age_succ fun h0 => hwrap ⟨Nat.not_le.1 hlt, hlive, h0⟩
  refine ⟨hk.bound, ?_, ?_⟩
  · dsimp only
    rcases eq_or_ne tok'.idx tok.idx with heq | hne
    · rw [heq, update_self]
      rw [hgen]
      exact Nat.le_succ_of_le (heq ▸ hk.age_le)
    · rw [update_of_ne hne]
      exact hk.age_le
  · dsimp only
    rcases eq_or_ne tok'.idx tok.idx with heq | hne
    · rw [heq, update_self]
      intro hsame
      have hle := hk.age_le
      rw [hsame, heq] at hle
      dsimp only at hle
      omega
    · rw [update_of_ne hne]
      exact hk.holds

/-- **What a handle resolves to** is what it was given out for. -/
theorem wubuCapHandleResolve_spec (hk : t.Keeps tok P)
    (h : wubuCapHandleResolve t pid tok required r = some i) : ∃ j, P j ∧ j % 2 ^ 24 = i := by
  rw [wubuCapHandleResolve] at h
  split at h
  · cases h
  dsimp only at h
  split at h
  · cases h
  split at h
  · cases h
  rename_i hgen
  exact ⟨_, (hk.holds (not_not.1 hgen).symm).2, (wubuCapResolve_iff.1 h).1⟩

end WuBuOS.Cap
