import WuBuOS.Lib.Runs
import WuBuOS.Runtime.Cap.Handle

/-!
# The life of a handle

`runtime/wubu_cap/wubu_cap_handle.c`, over whole runs: handles are inserted, and tokens are closed that have been given
out for them, now or long ago.  A `HandleSession` is a table, and what a user of it has to remember: the tokens that are open,
the ones that have been closed, and how often each entry has been.

`wubu_cap_handle_resolve` compares the generation of a token with that of its entry.  `wubu_cap_handle_close` does not,
so a token that has been closed closes whatever has its entry by now.  The generation has 32 bits, so that after 2 ^ 32
closes of one entry the tokens for it come again.  Other than that the table is all right (`lifecycle_iff`).
-/

namespace WuBuOS.Cap

open Linked Runs
open Function (update update_of_ne update_self)

variable {r' : Registry} {closes : Nat → Nat}

/-! ## What is said of a table -/

variable {e : Nat → HEntry} {t t' : HandleTable} {tok : Token} {idx slot start n head i : Nat} {flags : UInt8}
  {Q : Nat → Prop} {r : Registry}

/-- The token names an entry that is in use, with its generation. -/
structure HandleTable.Live (t : HandleTable) (tok : Token) : Prop where
  bound : tok.idx < t.capacity
  used : (t.entries tok.idx).objectIdx ≠ idxNone
  gen : (t.entries tok.idx).localGen = tok.gen

/-- **The token denotes a live entry**, which is for this object. -/
structure HandleTable.Denotes (t : HandleTable) (tok : Token) (idx : Nat) : Prop where
  live : t.Live tok
  object : (t.entries tok.idx).objectIdx = idx
  flags : (t.entries tok.idx).tokenFlags = tok.flags

/-- From the head there is a list of exactly the entries of some kind that are not in use. -/
def FreeExactly (e : Nat → HEntry) (head : Nat) (Q : Nat → Prop) : Prop :=
  ∃ l, IsList (fun i => (e i).nextFree) handleNone head l ∧ ∀ i, i ∈ l ↔ Q i ∧ (e i).objectIdx = idxNone

/-- **The free list** is that of the entries that are not in use, but for the first.  None is on it twice. -/
def HandleTable.FreeExact (t : HandleTable) : Prop :=
  FreeExactly t.entries t.nextFree fun i => i ≠ 0 ∧ i < t.capacity

/-- The entry that a token names has been given out for just this token, if it is in use. -/
def HandleTable.Own (t : HandleTable) (tok : Token) : Prop :=
  tok.idx < t.capacity → (t.entries tok.idx).objectIdx ≠ idxNone →
    (t.entries tok.idx).localGen = tok.gen ∧ (t.entries tok.idx).tokenFlags = tok.flags

/-! ## Sessions -/

/-- A call. -/
inductive HandleCall
  | insert (objectIdx : Nat) (flags : UInt8)
  | close (tok : Token)
  deriving DecidableEq

/-- A handle table, and what its user remembers: tokens, with what they are for, and how often an entry has been
closed. -/
structure HandleSession where
  table : HandleTable
  reg : Registry
  opened : List (Token × Nat)
  closed : List Token
  closes : Nat → Nat

/-- A call is made. -/
def HandleSession.step (s : HandleSession) : HandleCall → HandleSession
  | .insert objectIdx flags =>
    let res := wubuCapHandleInsert s.table objectIdx flags s.reg
    { s with
      table := res.1.2
      reg := res.2
      opened := if res.1.1.isNull then s.opened else (res.1.1, objectIdx) :: s.opened }
  | .close tok =>
    let res := wubuCapHandleClose s.table tok
    { s with
      table := res.2
      opened := s.opened.filter fun p => p.1 ≠ tok
      closed := (s.opened.map Prod.fst).filter (· = tok) ++ s.closed
      closes := if res.1.isOk then update s.closes tok.idx (s.closes tok.idx + 1) else s.closes }

/-- **What a user relies on.** -/
structure HandleSession.Lifecycle (s : HandleSession) : Prop where
  opened : ∀ p ∈ s.opened, s.table.Denotes p.1 p.2
  closed : ∀ tok ∈ s.closed, ¬ s.table.Live tok
  free : s.table.FreeExact

/-- **What a user has to see to**: that what is closed is what the token has been given out for, and that no entry is
taken that has been closed 2 ^ 32 times. -/
def HandleSession.Allows (s : HandleSession) : HandleCall → Prop
  | .insert objectIdx _ =>
    objectIdx ≠ idxNone → s.table.nextFree ≠ handleNone → s.closes s.table.nextFree < 2 ^ 32
  | .close tok => s.table.Own tok

/-- Before the first call. -/
def HandleSession.fresh (t : HandleTable) (r : Registry) : HandleSession := ⟨t, r, [], [], fun _ => 0⟩

/-! ## The free list -/

theorem FreeExactly.mono {Q' : Nat → Prop} (h : FreeExactly e head Q)
    (hQ : ∀ i, (e i).objectIdx = idxNone → (Q i ↔ Q' i)) : FreeExactly e head Q' := by
  obtain ⟨l, hl, hmem⟩ := h
  exact ⟨l, hl, fun i => (hmem i).trans (and_congr_left fun hi => hQ i hi)⟩

/-- An entry that is not on the list is put on it. -/
theorem FreeExactly.push (h : FreeExactly e head Q) (hnot : Q i → (e i).objectIdx ≠ idxNone) (hi : i ≠ handleNone)
    (g : UInt32) (f : UInt8) :
    FreeExactly (update e i ⟨idxNone, g, f, head⟩) i fun j => j = i ∨ Q j := by
  obtain ⟨l, hl, hmem⟩ := h
  have hout : i ∉ l := fun hin => hnot ((hmem i).1 hin).1 ((hmem i).1 hin).2
  have hother : ∀ j, j ≠ i → update e i ⟨idxNone, g, f, head⟩ j = e j := fun j hj => update_of_ne hj ..
  refine ⟨i :: l, hl.push hi ?_ fun j hj => ?_, fun j => ?_⟩
  · rw [update_self]
  · rw [hother j fun heq => hout (heq ▸ hj)]
  · rcases eq_or_ne j i with rfl | hj
    · simp
    · simp only [List.mem_cons, hj, false_or, hother j hj, hmem]

/-- The first entry of the list is taken off it. -/
theorem FreeExactly.pop (h : FreeExactly e head Q) (hhead : head ≠ handleNone) (x : HEntry)
    (hx : x.objectIdx ≠ idxNone) :
    Q head ∧ (e head).objectIdx = idxNone ∧ FreeExactly (update e head x) (e head).nextFree Q := by
  obtain ⟨l, hl, hmem⟩ := h
  cases l with
  | nil => exact absurd hl hhead
  | cons a l =>
    obtain ⟨rfl, -, hrest⟩ := hl
    have hout : head ∉ l := (List.nodup_cons.1 (IsList.nodup ⟨rfl, hhead, hrest⟩)).1
    have hother : ∀ j, j ≠ head → update e head x j = e j := fun j hj => update_of_ne hj ..
    obtain ⟨hQ, hnone⟩ := (hmem head).1 (.head _)
    refine ⟨hQ, hnone, l, hrest.congr fun j hj => ?_, fun j => ?_⟩
    · rw [hother j fun heq => hout (heq ▸ hj)]
    · rcases eq_or_ne j head with rfl | hj
      · simp [hout, hx]
      · rw [hother j hj, ← hmem, List.mem_cons, or_iff_right hj]

/-- What `rebuild_free` makes of the new entries. -/
theorem rebuildFree_new (hi : start ≤ i) (hn : i < start + n) :
    ((rebuildFree e start n head).1 i).objectIdx = idxNone ∧ ((rebuildFree e start n head).1 i).localGen = 1 := by
  induction n generalizing e head with
  | zero => omega
  | succ n ih =>
    rw [rebuildFree]
    rcases Nat.lt_or_ge i (start + n) with hlt | hge
    · exact ih hlt
    · obtain rfl : i = start + n := by omega
      have hsame : ∀ (k : Nat) (e : Nat → HEntry) (head : Nat), k ≤ n →
          (rebuildFree e start k head).1 (start + n) = e (start + n) := by
        intro k
        induction k with
        | zero => exact fun _ _ _ => rfl
        | succ k ih =>
          intro e head hk
          rw [rebuildFree, ih _ _ (by omega), update_of_ne (by omega)]
      rw [hsame n _ _ (Nat.le_refl n), update_self]
      exact ⟨rfl, rfl⟩

/-! ## One call -/

/-- **An entry is taken**: which one, what is in it then, and that nothing is done to the others. -/
structure Taken (t : HandleTable) (idx : Nat) (flags : UInt8) (slot : Nat) (tok : Token) (t' : HandleTable) : Prop where
  pos : slot ≠ 0
  bound : slot < t'.capacity
  grows : t.capacity ≤ t'.capacity
  unused : slot < t.capacity → (t.entries slot).objectIdx = idxNone
  first : t.nextFree ≠ handleNone → slot = t.nextFree
  object : (t'.entries slot).objectIdx = idx
  gen : (t'.entries slot).localGen = if slot < t.capacity then (t.entries slot).localGen else 1
  token : tok = ⟨(t'.entries slot).localGen, slot, flags⟩
  flags : (t'.entries slot).tokenFlags = flags
  others : ∀ i, i ≠ slot → i < t.capacity → t'.entries i = t.entries i
  new : ∀ i, i ≠ slot → t.capacity ≤ i → i < t'.capacity →
    (t'.entries i).objectIdx = idxNone ∧ (t'.entries i).localGen = 1
  ok : t'.Ok
  free : t'.FreeExact

theorem take_taken (ht : t.Ok) (hfree : t.FreeExact) (hnext : t.nextFree ≠ handleNone) (hidx : idx ≠ idxNone) :
    Taken t idx flags t.nextFree (t.take idx flags).1 (t.take idx flags).2 := by
  obtain ⟨⟨hpos, hlt⟩, hnone, hpop⟩ := hfree.pop hnext ⟨idx, (t.entries t.nextFree).localGen, flags, handleNone⟩ hidx
  have hself : (t.take idx flags).2.entries t.nextFree = ⟨idx, (t.entries t.nextFree).localGen, flags, handleNone⟩ :=
    update_self ..
  exact
    { pos := hpos
      bound := hlt
      grows := Nat.le_refl _
      unused := fun _ => hnone
      first := fun _ => rfl
      object := by rw [hself]
      gen := by rw [hself, if_pos hlt]
      token := by
        have hmod : t.nextFree % 2 ^ 24 = t.nextFree := Nat.mod_eq_of_lt ((hlt.trans_le ht.bound).trans (by decide))
        rw [hself, HandleTable.take, tokenPack, hmod]
      flags := by rw [hself]
      others := fun i hi _ => update_of_ne hi ..
      new := fun i _ hle hlt => absurd hlt (Nat.not_lt_of_le hle)
      ok := (take_ok ht hnext hidx).1
      free := hpop }

/-- A table that has grown has the old entries, and more. -/
theorem grow_exact (h : grow t r = (some t', r')) (ht : t.Ok) (hfree : t.FreeExact) :
    t'.FreeExact ∧ ∀ i, t.capacity ≤ i → i < t'.capacity →
      (t'.entries i).objectIdx = idxNone ∧ (t'.entries i).localGen = 1 := by
  rw [grow] at h
  split at h
  · cases h
  rename_i hlt
  split at h
  · cases h
  cases congrArg Prod.fst h
  have hpos := ht.pos
  have hcap : t.capacity + (min (t.capacity * 2) handleMax - t.capacity) = min (t.capacity * 2) handleMax := by omega
  refine ⟨?_, fun i hle hi => rebuildFree_new hle (Nat.lt_of_lt_of_eq hi hcap.symm)⟩
  refine rebuildFree_push FreeExactly.push (hfree.mono fun j hj => ?_) hpos (Nat.le_of_eq hcap) (Nat.min_le_right ..)
  dsimp only
  omega

/-- **What `wubu_cap_handle_insert` does**: nothing, or it takes an entry. -/
theorem insert_cases (ht : t.Ok) (hfree : t.FreeExact) :
    ((wubuCapHandleInsert t idx flags r).1.1.isNull = true ∧ (wubuCapHandleInsert t idx flags r).1.2 = t) ∨
      (idx ≠ idxNone ∧ (wubuCapHandleInsert t idx flags r).1.1.isNull = false ∧
        Taken t idx flags (wubuCapHandleInsert t idx flags r).1.1.idx (wubuCapHandleInsert t idx flags r).1.1
          (wubuCapHandleInsert t idx flags r).1.2) := by
  rw [wubuCapHandleInsert]
  split
  · exact .inl ⟨rfl, rfl⟩
  rename_i hidx
  have hslot : ∀ {t1 : HandleTable}, Taken t1 idx flags t1.nextFree (t1.take idx flags).1 (t1.take idx flags).2 →
      (t1.take idx flags).1.idx = t1.nextFree := fun h => by rw [h.token]
  split
  · rename_i hnone
    split
    · exact .inl ⟨rfl, rfl⟩
    · rename_i t1 r1 hgrow
      obtain ⟨ht1, hnext, hle, hsame⟩ := grow_ok hgrow ht
      obtain ⟨hfree1, hnew⟩ := grow_exact hgrow ht hfree
      have htaken := @take_taken t1 idx flags ht1 hfree1 hnext hidx
      obtain ⟨-, hnull, -, -⟩ := @take_ok t1 idx flags ht1 hnext hidx
      refine .inr ⟨hidx, hnull, ?_⟩
      rw [hslot htaken]
      exact
        { htaken with
          grows := hle
          unused := fun hlt => (congrArg HEntry.objectIdx (hsame _ hlt)).symm.trans (htaken.unused htaken.bound)
          first := fun h => absurd hnone h
          gen := by
            have hgen := htaken.gen
            rw [if_pos (show t1.nextFree < t1.capacity from htaken.bound)] at hgen
            rw [hgen]
            split
            · rename_i hlt
              rw [hsame _ hlt]
            · rename_i hge
              exact (hnew _ (Nat.le_of_not_lt hge) htaken.bound).2
          others := fun i hi hlt => (htaken.others i hi (hlt.trans_le hle)).trans (hsame i hlt)
          new := fun i hi hge hlt => by
            rw [htaken.others i hi hlt]
            exact hnew i hge hlt }
  · rename_i hnext
    have htaken := @take_taken t idx flags ht hfree hnext hidx
    obtain ⟨-, hnull, -, -⟩ := @take_ok t idx flags ht hnext hidx
    refine .inr ⟨hidx, hnull, ?_⟩
    rw [hslot htaken]
    exact htaken

/-- The entry of a token has been given back. -/
structure GivenBack (t : HandleTable) (tok : Token) (t' : HandleTable) : Prop where
  bound : tok.idx < t.capacity
  used : (t.entries tok.idx).objectIdx ≠ idxNone
  capacity : t'.capacity = t.capacity
  unused : (t'.entries tok.idx).objectIdx = idxNone
  gen : (t'.entries tok.idx).localGen = (t.entries tok.idx).localGen + 1
  others : ∀ i, i ≠ tok.idx → t'.entries i = t.entries i
  ok : t'.Ok
  free : t'.FreeExact

/-- **What `wubu_cap_handle_close` does**: nothing, or it gives the entry back. -/
theorem close_cases (ht : t.Ok) (hfree : t.FreeExact) (tok : Token) :
    ((tok.idx < t.capacity → (t.entries tok.idx).objectIdx = idxNone) ∧
        (wubuCapHandleClose t tok).1.isOk = false ∧ (wubuCapHandleClose t tok).2 = t) ∨
      ((wubuCapHandleClose t tok).1.isOk = true ∧ GivenBack t tok (wubuCapHandleClose t tok).2) := by
  have hok : (wubuCapHandleClose t tok).2.Ok := wubuCapHandleClose_ok ht
  rw [wubuCapHandleClose] at hok ⊢
  split at hok
  · rename_i hle
    rw [if_pos hle]
    exact .inl ⟨fun hlt => absurd hlt (Nat.not_lt_of_le hle), rfl, rfl⟩
  rename_i hlt
  rw [if_neg hlt]
  dsimp only at hok ⊢
  split at hok
  · rename_i hnone
    rw [if_pos hnone]
    exact .inl ⟨fun _ => hnone, rfl, rfl⟩
  rename_i hused
  rw [if_neg hused]
  rw [Nat.not_le] at hlt
  have h0 : tok.idx ≠ 0 := by
    intro h0
    rw [h0, ht.zero] at hused
    exact hused rfl
  have hne : tok.idx ≠ handleNone := by
    have : handleMax < handleNone := by decide
    have := ht.bound
    omega
  have hself := update_self tok.idx ⟨idxNone, (t.entries tok.idx).localGen + 1, 0, t.nextFree⟩ t.entries
  refine .inr ⟨rfl, hlt, hused, rfl, congrArg HEntry.objectIdx hself, congrArg HEntry.localGen hself,
    fun i hi => update_of_ne hi .., hok, ?_⟩
  refine (hfree.push (fun _ => hused) hne _ _).mono fun j _ => ⟨?_, fun h => .inr h⟩
  rintro (rfl | h)
  · exact ⟨h0, hlt⟩
  · exact h

/-! ## Sessions -/

/-- **What holds of a session** as long as its user sees to it. -/
structure HandleSession.Ok (s : HandleSession) : Prop where
  table : s.table.Ok
  life : s.Lifecycle
  owner : ∀ slot, slot < s.table.capacity → (s.table.entries slot).objectIdx ≠ idxNone →
    ∃ p ∈ s.opened, p.1 = ⟨(s.table.entries slot).localGen, slot, (s.table.entries slot).tokenFlags⟩
  gen : ∀ slot, slot ≠ 0 → slot < s.table.capacity →
    (s.table.entries slot).localGen = 1 + UInt32.ofNat (s.closes slot)
  few : ∀ slot, slot < s.table.capacity → (s.table.entries slot).objectIdx ≠ idxNone → s.closes slot < 2 ^ 32
  fresh : ∀ slot, s.table.capacity ≤ slot → s.closes slot = 0
  past : ∀ tok ∈ s.closed, tok.idx ≠ 0 ∧ ∃ k < s.closes tok.idx, tok.gen = 1 + UInt32.ofNat k
  every : ∀ slot k, k < s.closes slot → ∃ tok ∈ s.closed, tok.idx = slot ∧ tok.gen = 1 + UInt32.ofNat k

/-- Generations repeat after 2 ^ 32 closes, and no earlier. -/
theorem gen_eq_iff {k m : Nat} : 1 + UInt32.ofNat k = 1 + UInt32.ofNat m ↔ k % 2 ^ 32 = m % 2 ^ 32 := by
  rw [UInt32.add_right_inj, ← UInt32.toNat_inj, UInt32.toNat_ofNat', UInt32.toNat_ofNat']

variable {s : HandleSession} {c : HandleCall}

/-- What is in use is not the first entry. -/
theorem HandleSession.Ok.pos (h : s.Ok) (hused : (s.table.entries slot).objectIdx ≠ idxNone) : slot ≠ 0 := by
  rintro rfl
  exact hused h.table.zero

/-- A token that has been closed is not that of an entry that is in use. -/
theorem not_live_of_past {tok : Token} (ht : t.Ok)
    (hgen : ∀ slot, slot ≠ 0 → slot < t.capacity → (t.entries slot).localGen = 1 + UInt32.ofNat (closes slot))
    (hfew : ∀ slot, slot < t.capacity → (t.entries slot).objectIdx ≠ idxNone → closes slot < 2 ^ 32)
    (hpast : ∃ k < closes tok.idx, tok.gen = 1 + UInt32.ofNat k) : ¬ t.Live tok := by
  rintro ⟨hlt, hused, hlive⟩
  obtain ⟨k, hk, htok⟩ := hpast
  have h0 : tok.idx ≠ 0 := fun h0 => hused (by rw [h0]; exact ht.zero)
  have hfew := hfew _ hlt hused
  rw [hgen _ h0 hlt, htok, gen_eq_iff, Nat.mod_eq_of_lt hfew, Nat.mod_eq_of_lt (hk.trans hfew)] at hlive
  omega

theorem HandleSession.fresh_ok (h : wubuCapHandleTableCreate r = (some t, r')) : (HandleSession.fresh t r').Ok := by
  have ht := wubuCapHandleTableCreate_ok h
  rw [wubuCapHandleTableCreate] at h
  split at h
  · cases h
  split at h
  · cases h
  cases congrArg Prod.fst h
  have hnew : ∀ i, 1 ≤ i → i < handleInitial →
      ((rebuildFree (fun _ => ⟨idxNone, 0, 0, handleNone⟩) 1 (handleInitial - 1) handleNone).1 i).objectIdx = idxNone ∧
        ((rebuildFree (fun _ => ⟨idxNone, 0, 0, handleNone⟩) 1 (handleInitial - 1) handleNone).1 i).localGen = 1 :=
    fun i hle hlt => rebuildFree_new hle hlt
  have hunused : ∀ i, i < handleInitial →
      ((rebuildFree (fun _ => ⟨idxNone, 0, 0, handleNone⟩) 1 (handleInitial - 1) handleNone).1 i).objectIdx =
        idxNone := by
    intro i hlt
    rcases Nat.eq_zero_or_pos i with rfl | hpos
    · exact ht.zero
    · exact (hnew i hpos hlt).1
  refine ⟨ht, ⟨by rintro _ ⟨⟩, by rintro _ ⟨⟩, ?_⟩, fun slot hlt hused => absurd (hunused slot hlt) hused, fun slot h0 hlt => ?_,
    fun slot hlt hused => absurd (hunused slot hlt) hused, fun _ _ => rfl,
    by rintro _ ⟨⟩, by rintro _ _ ⟨⟩⟩
  · change FreeExactly _ _ fun i => i ≠ 0 ∧ i < handleInitial
    refine rebuildFree_push FreeExactly.push ⟨[], rfl, fun i => ?_⟩ (by decide) (by decide) (by decide)
    simp only [List.not_mem_nil, false_iff]
    rintro ⟨⟨h0, hout, hlt⟩, -⟩
    omega
  · exact (hnew slot (Nat.one_le_iff_ne_zero.2 h0) hlt).2

/-- **An insertion keeps it**, if the entry has not been closed too often. -/
theorem HandleSession.Ok.insert {t' : HandleTable} (h : s.Ok) (htaken : Taken s.table idx flags slot tok t')
    (hidx : idx ≠ idxNone) (hfew : s.closes slot < 2 ^ 32) :
    HandleSession.Ok { s with table := t', reg := r', opened := (tok, idx) :: s.opened } := by
  have hne : ∀ i, i < s.table.capacity → (s.table.entries i).objectIdx ≠ idxNone → i ≠ slot := by
    rintro i hlt hused rfl
    exact hused (htaken.unused hlt)
  have hgen : ∀ i, i ≠ 0 → i < t'.capacity → (t'.entries i).localGen = 1 + UInt32.ofNat (s.closes i) := by
    intro i h0 hlt
    by_cases hi : i = slot
    · subst hi
      rw [htaken.gen]
      split
      · rename_i hold
        exact h.gen i h0 hold
      · rename_i hnew
        rw [h.fresh i (Nat.le_of_not_lt hnew)]
        rfl
    · rcases Nat.lt_or_ge i s.table.capacity with hold | hnew
      · rw [htaken.others i hi hold]
        exact h.gen i h0 hold
      · rw [(htaken.new i hi hnew hlt).2, h.fresh i hnew]
        rfl
  have hused : ∀ i, i < t'.capacity → (t'.entries i).objectIdx ≠ idxNone → i = slot ∨
      i < s.table.capacity ∧ (s.table.entries i).objectIdx ≠ idxNone ∧ t'.entries i = s.table.entries i := by
    intro i hlt hused
    refine or_iff_not_imp_left.2 fun hi => ?_
    rcases Nat.lt_or_ge i s.table.capacity with hold | hnew
    · rw [htaken.others i hi hold] at hused
      exact ⟨hold, hused, htaken.others i hi hold⟩
    · exact absurd (htaken.new i hi hnew hlt).1 hused
  have hfew' : ∀ i, i < t'.capacity → (t'.entries i).objectIdx ≠ idxNone → s.closes i < 2 ^ 32 := by
    intro i hlt hi
    rcases hused i hlt hi with rfl | ⟨hold, hi, -⟩
    · exact hfew
    · exact h.few i hold hi
  refine ⟨htaken.ok, ⟨fun p hp => ?_, fun tok' htok' => ?_, htaken.free⟩, fun i hlt hi => ?_, hgen, hfew',
    fun i hle => h.fresh i (htaken.grows.trans hle), h.past, h.every⟩
  · rcases List.mem_cons.1 hp with rfl | hp
    · have htok := htaken.token
      subst htok
      exact ⟨⟨htaken.bound, by rw [htaken.object]; exact hidx, rfl⟩, htaken.object, htaken.flags⟩
    · obtain ⟨⟨hlt, hused, hg⟩, hobj, hfl⟩ := h.life.opened p hp
      have hsame := htaken.others _ (hne _ hlt hused) hlt
      exact ⟨⟨hlt.trans_le htaken.grows, hsame ▸ hused, hsame ▸ hg⟩, hsame ▸ hobj, hsame ▸ hfl⟩
  · exact not_live_of_past htaken.ok hgen hfew' (h.past tok' htok').2
  · rcases hused i hlt hi with rfl | ⟨hold, hi, hsame⟩
    · refine ⟨(tok, idx), .head _, ?_⟩
      rw [htaken.token, htaken.flags]
    · obtain ⟨p, hp, heq⟩ := h.owner i hold hi
      exact ⟨p, .tail _ hp, by rw [heq, hsame]⟩

/-- An entry that may be taken has not been closed too often; one that is new has not been closed at all. -/
theorem HandleSession.Ok.few_of_allows {t' : HandleTable} (h : s.Ok) (htaken : Taken s.table idx flags slot tok t')
    (hidx : idx ≠ idxNone) (hallows : s.Allows (.insert idx flags)) : s.closes slot < 2 ^ 32 := by
  by_cases hnext : s.table.nextFree = handleNone
  · rcases Nat.lt_or_ge slot s.table.capacity with hold | hnew
    · obtain ⟨l, hl, hmem⟩ := h.life.free
      have hin : slot ∈ l := (hmem slot).2 ⟨⟨htaken.pos, hold⟩, htaken.unused hold⟩
      cases l with
      | nil => cases hin
      | cons a l => exact absurd (hl.1.symm.trans hnext) hl.2.1
    · rw [h.fresh slot hnew]
      decide
  · rw [htaken.first hnext]
    exact hallows hidx hnext

theorem HandleSession.Ok.step_insert (h : s.Ok) {objectIdx : Nat} {flags : UInt8} (hallows : s.Allows (.insert objectIdx flags)) :
    (s.step (.insert objectIdx flags)).Ok := by
  obtain ⟨hnull, heq⟩ | ⟨hidx, hnull, htaken⟩ := @insert_cases s.table objectIdx flags s.reg h.table h.life.free
  · simp only [HandleSession.step, hnull, heq]
    exact ⟨h.table, ⟨h.life.opened, h.life.closed, h.life.free⟩, h.owner, h.gen, h.few, h.fresh, h.past, h.every⟩
  · simp only [HandleSession.step, hnull]
    exact h.insert htaken hidx (h.few_of_allows htaken hidx hallows)

/-- **An insertion is noticed** if the entry has been closed too often: a token that has been closed is live. -/
theorem HandleSession.Ok.allows_insert (h : s.Ok) {objectIdx : Nat} {flags : UInt8}
    (hlife : (s.step (.insert objectIdx flags)).Lifecycle) : s.Allows (.insert objectIdx flags) := by
  intro hidx hnext
  by_contra hmany
  obtain ⟨⟨hpos, hlt⟩, hnone, -⟩ := h.life.free.pop hnext ⟨objectIdx, 0, flags, handleNone⟩ hidx
  have htaken := @take_taken s.table objectIdx flags h.table h.life.free hnext hidx
  obtain ⟨tok, htok, hslot, hgen⟩ := h.every s.table.nextFree (s.closes s.table.nextFree % 2 ^ 32) (by omega)
  have htable : (s.step (.insert objectIdx flags)).table = (s.table.take objectIdx flags).2 := by
    simp only [HandleSession.step, wubuCapHandleInsert, if_neg hidx, if_neg hnext]
  refine hlife.closed tok htok ?_
  rw [htable]
  refine ⟨hslot ▸ htaken.bound, ?_, ?_⟩
  · rw [hslot, htaken.object]
    exact hidx
  · rw [hslot, htaken.gen, if_pos hlt, h.gen _ hpos hlt, hgen, gen_eq_iff, Nat.mod_mod]

/-- A close that fails changes nothing: the token is not open. -/
theorem HandleSession.Ok.step_close_fails (h : s.Ok) {tok : Token}
    (hunused : tok.idx < s.table.capacity → (s.table.entries tok.idx).objectIdx = idxNone)
    (hfails : (wubuCapHandleClose s.table tok).1.isOk = false) (hsame : (wubuCapHandleClose s.table tok).2 = s.table) :
    s.step (.close tok) = s := by
  have hnot : ∀ p ∈ s.opened, p.1 ≠ tok := by
    rintro p hp rfl
    have hlive := (h.life.opened p hp).live
    exact hlive.used (hunused hlive.bound)
  have hfilter : s.opened.filter (fun p => p.1 ≠ tok) = s.opened :=
    List.filter_eq_self.2 fun p hp => decide_eq_true (hnot p hp)
  have hnil : (s.opened.map Prod.fst).filter (· = tok) = [] := by
    refine List.filter_eq_nil_iff.2 fun x hx => ?_
    obtain ⟨p, hp, rfl⟩ := List.mem_map.1 hx
    exact fun heq => hnot p hp (of_decide_eq_true heq)
  simp only [HandleSession.step, hfails, hsame, hfilter, hnil, List.nil_append]
  rfl

/-- One more close of an entry. -/
def oneMore (closes : Nat → Nat) (slot : Nat) : Nat → Nat := update closes slot (closes slot + 1)

theorem oneMore_self (closes : Nat → Nat) (slot : Nat) : oneMore closes slot slot = closes slot + 1 :=
  update_self ..

theorem oneMore_of_ne {slot i : Nat} (h : i ≠ slot) : oneMore closes slot i = closes i :=
  update_of_ne h ..

/-- What is in use has not been given back. -/
theorem GivenBack.ne_of_used (hback : GivenBack t tok t') (h : (t'.entries i).objectIdx ≠ idxNone) : i ≠ tok.idx := by
  rintro rfl
  exact h hback.unused

theorem GivenBack.gens (hback : GivenBack s.table tok t') (h : s.Ok) (h0 : i ≠ 0) (hi : i < t'.capacity) :
    (t'.entries i).localGen = 1 + UInt32.ofNat (oneMore s.closes tok.idx i) := by
  rw [hback.capacity] at hi
  rcases eq_or_ne i tok.idx with rfl | hne
  · rw [hback.gen, h.gen _ h0 hi, oneMore_self, UInt32.ofNat_add, ← UInt32.add_assoc]
    rfl
  · rw [hback.others i hne, oneMore_of_ne hne]
    exact h.gen i h0 hi

theorem GivenBack.few (hback : GivenBack s.table tok t') (h : s.Ok) (hi : i < t'.capacity)
    (hused : (t'.entries i).objectIdx ≠ idxNone) : oneMore s.closes tok.idx i < 2 ^ 32 := by
  have hne := hback.ne_of_used hused
  rw [hback.capacity] at hi
  rw [hback.others i hne] at hused
  rw [oneMore_of_ne hne]
  exact h.few i hi hused

theorem HandleSession.Ok.past_close (h : s.Ok) (hback : GivenBack s.table tok t')
    (hg : (s.table.entries tok.idx).localGen = tok.gen) {tok' : Token}
    (htok' : tok' ∈ (s.opened.map Prod.fst).filter (· = tok) ++ s.closed) :
    tok'.idx ≠ 0 ∧ ∃ k < oneMore s.closes tok.idx tok'.idx, tok'.gen = 1 + UInt32.ofNat k := by
  rcases List.mem_append.1 htok' with hnew | hold
  · obtain rfl : tok' = tok := of_decide_eq_true (List.mem_filter.1 hnew).2
    have h0 := h.pos hback.used
    refine ⟨h0, s.closes tok'.idx, ?_, hg.symm.trans (h.gen _ h0 hback.bound)⟩
    rw [oneMore_self]
    exact Nat.lt_succ_self _
  · obtain ⟨h0, k, hk, hgen⟩ := h.past tok' hold
    refine ⟨h0, k, ?_, hgen⟩
    rcases eq_or_ne tok'.idx tok.idx with heq | hne
    · rw [heq, oneMore_self]
      exact Nat.lt_succ_of_lt (heq ▸ hk)
    · rwa [oneMore_of_ne hne]

theorem HandleSession.Ok.every_close (h : s.Ok) (hback : GivenBack s.table tok t')
    (hg : (s.table.entries tok.idx).localGen = tok.gen)
    (hmem : tok ∈ (s.opened.map Prod.fst).filter (· = tok)) {k : Nat} (hk : k < oneMore s.closes tok.idx i) :
    ∃ tok' ∈ (s.opened.map Prod.fst).filter (· = tok) ++ s.closed, tok'.idx = i ∧ tok'.gen = 1 + UInt32.ofNat k := by
  rcases eq_or_ne i tok.idx with rfl | hne
  · rw [oneMore_self] at hk
    rcases Nat.lt_succ_iff_lt_or_eq.1 hk with hk | rfl
    · obtain ⟨tok', htok', hslot⟩ := h.every _ k hk
      exact ⟨tok', List.mem_append_right _ htok', hslot⟩
    · exact ⟨tok, List.mem_append_left _ hmem, rfl, hg.symm.trans (h.gen _ (h.pos hback.used) hback.bound)⟩
  · rw [oneMore_of_ne hne] at hk
    obtain ⟨tok', htok', hslot⟩ := h.every i k hk
    exact ⟨tok', List.mem_append_right _ htok', hslot⟩

/-- A token that is open, and not the one that is closed, is that of another entry. -/
theorem HandleSession.Ok.idx_ne (h : s.Ok) (hg : (s.table.entries tok.idx).localGen = tok.gen)
    (hf : (s.table.entries tok.idx).tokenFlags = tok.flags) {p : Token × Nat} (hp : p ∈ s.opened) (hne : p.1 ≠ tok) :
    p.1.idx ≠ tok.idx := by
  obtain ⟨⟨-, -, hpg⟩, -, hpf⟩ := h.life.opened p hp
  intro heq
  refine hne ?_
  rw [heq] at hpg hpf
  obtain ⟨⟨g, idx, f⟩, obj⟩ := p
  simp only at heq hpg hpf hg hf
  rw [heq, ← hpg, ← hpf, hg, hf]

/-- **A close keeps it**, if the entry has been given out for just this token. -/
theorem HandleSession.Ok.close (h : s.Ok) (hback : GivenBack s.table tok t')
    (hg : (s.table.entries tok.idx).localGen = tok.gen) (hf : (s.table.entries tok.idx).tokenFlags = tok.flags) :
    HandleSession.Ok { s with
      table := t'
      opened := s.opened.filter fun p => p.1 ≠ tok
      closed := (s.opened.map Prod.fst).filter (· = tok) ++ s.closed
      closes := oneMore s.closes tok.idx } := by
  obtain ⟨p0, hp0, heq0⟩ := h.owner tok.idx hback.bound hback.used
  have htok : p0.1 = tok := by rw [heq0, hg, hf]
  have hmem : tok ∈ (s.opened.map Prod.fst).filter (· = tok) :=
    List.mem_filter.2 ⟨htok ▸ List.mem_map_of_mem hp0, decide_eq_true rfl⟩
  have hgens : ∀ i, i ≠ 0 → i < t'.capacity → _ := fun i => hback.gens (i := i) h
  have hfews : ∀ i, i < t'.capacity → (t'.entries i).objectIdx ≠ idxNone → _ := fun i => hback.few (i := i) h
  refine ⟨hback.ok, ⟨fun p hp => ?_, fun tok' htok' => ?_, hback.free⟩, fun i hi hused => ?_, hgens, hfews, fun i hle => ?_,
    fun tok' => h.past_close hback hg, fun i k => h.every_close hback hg hmem⟩
  · obtain ⟨hp, hpne⟩ := List.mem_filter.1 hp
    obtain ⟨⟨hb, hu, hpg⟩, hobj, hpf⟩ := h.life.opened p hp
    have hsame := hback.others _ (h.idx_ne hg hf hp (of_decide_eq_true hpne))
    exact ⟨⟨hback.capacity ▸ hb, hsame ▸ hu, hsame ▸ hpg⟩, hsame ▸ hobj, hsame ▸ hpf⟩
  · exact not_live_of_past hback.ok hgens hfews (h.past_close hback hg htok').2
  · have hne := hback.ne_of_used hused
    rw [hback.capacity] at hi
    rw [hback.others i hne] at hused ⊢
    obtain ⟨p, hp, heq⟩ := h.owner i hi hused
    refine ⟨p, List.mem_filter.2 ⟨hp, decide_eq_true ?_⟩, heq⟩
    rintro rfl
    exact hne (congrArg Token.idx heq).symm
  · rw [hback.capacity] at hle
    exact (oneMore_of_ne (Nat.ne_of_gt (hback.bound.trans_le hle))).trans (h.fresh i hle)

theorem HandleSession.Ok.step_close (h : s.Ok) (hown : s.Allows (.close tok)) : (s.step (.close tok)).Ok := by
  obtain ⟨hunused, hfails, hsame⟩ | ⟨hdone, hback⟩ := close_cases h.table h.life.free tok
  · rw [h.step_close_fails hunused hfails hsame]
    exact h
  · obtain ⟨hg, hf⟩ := hown hback.bound hback.used
    simp only [HandleSession.step, hdone, ↓reduceIte]
    exact h.close hback hg hf

/-- **A close with another token is noticed**: the one that the entry has been given out for is open, and not live. -/
theorem HandleSession.Ok.allows_close (h : s.Ok) {tok : Token} (hlife : (s.step (.close tok)).Lifecycle) :
    s.Allows (.close tok) := by
  intro hlt hused
  obtain ⟨hunused, -, -⟩ | ⟨-, hback⟩ := close_cases h.table h.life.free tok
  · exact absurd (hunused hlt) hused
  by_contra hother
  obtain ⟨p, hp, heq⟩ := h.owner tok.idx hlt hused
  have hne : p.1 ≠ tok := by
    intro htok
    rw [htok] at heq
    exact hother ⟨(congrArg Token.gen heq).symm, (congrArg Token.flags heq).symm⟩
  have hlive := (hlife.opened p (List.mem_filter.2 ⟨hp, decide_eq_true hne⟩)).live.used
  have hslot : p.1.idx = tok.idx := by rw [heq]
  exact hlive (hslot ▸ hback.unused)

/-- **Handles live as they should** in every state of a run exactly if the user sees to it at every call. -/
theorem lifecycle_iff (r r' : Registry) (t : HandleTable) (calls : List HandleCall)
    (hcreate : wubuCapHandleTableCreate r = (some t, r')) :
    (HandleSession.fresh t r').Lifecycle ∧ Each HandleSession.step (fun s c => (s.step c).Lifecycle) (HandleSession.fresh t r') calls ↔
      Each HandleSession.step HandleSession.Allows (HandleSession.fresh t r') calls := by
  have hfresh := HandleSession.fresh_ok hcreate
  rw [and_iff_right hfresh.life]
  refine each_iff HandleSession.Ok (fun s c hs hlife => ?_) (fun s c hs => ?_) _ calls hfresh
  · cases c with
    | insert objectIdx flags => exact hs.step_insert (hs.allows_insert hlife)
    | close tok => exact hs.step_close (hs.allows_close hlife)
  · cases c with
    | insert objectIdx flags => exact ⟨hs.allows_insert, fun h => (hs.step_insert h).life⟩
    | close tok => exact ⟨hs.allows_close, fun h => (hs.step_close h).life⟩

/-- A handle is inserted, and closed. -/
theorem lifecycle_iff_once : ∃ t r', wubuCapHandleTableCreate (Registry.empty fun _ => true) = (some t, r') ∧
    (HandleSession.fresh t r').Lifecycle ∧
      Each HandleSession.step (fun s c => (s.step c).Lifecycle) (HandleSession.fresh t r') [.insert 5 0, .close ⟨1, 1, 0⟩] :=
  ⟨_, _, rfl, (lifecycle_iff (Registry.empty fun _ => true) _ _ [.insert 5 0, .close ⟨1, 1, 0⟩] rfl).2
    ⟨fun _ _ => by decide, fun _ _ => by decide, trivial⟩⟩

/-- **A token that has been closed is closed again**, and with it the handle that has its entry by now. -/
theorem close_stale : ∃ t r', wubuCapHandleTableCreate (Registry.empty fun _ => true) = (some t, r') ∧
    ∃ s : HandleSession, s = [HandleCall.insert 5 0, .close ⟨1, 1, 0⟩, .insert 6 0, .close ⟨1, 1, 0⟩].foldl HandleSession.step
        (HandleSession.fresh t r') ∧
      s.opened = [(⟨2, 1, 0⟩, 6)] ∧ (s.table.entries 1).objectIdx = idxNone ∧ ¬ s.Lifecycle := by
  refine ⟨_, _, rfl, _, rfl, by decide, by decide, fun h => ?_⟩
  have hlive := (h.opened (⟨2, 1, 0⟩, 6) (by decide)).live.used
  exact hlive (by decide)

end WuBuOS.Cap
